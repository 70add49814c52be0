import MinecraftWire.Proofs.Packet.Body

/-! What readers let through. Readers are more lenient than writers: they take numbers with groups to
spare, UUIDs in many spellings, texts and arrays of any length announced. Still every value they give
lies within the bounds of the writers, so a packet that was read can be written, in the version it was
read in, and is read back from that. -/

namespace MinecraftWire

/-! ### Forms that can be written -/

namespace Pieces

/-- Each piece can be written. -/
def Writable (pieces : Pieces) : Prop :=
  ∀ piece ∈ pieces, ∃ bytes, piece = .ok bytes

@[simp] theorem writable_nil : Writable [] :=
  fun _ h => absurd h List.not_mem_nil

@[simp] theorem writable_cons {piece : Except Fault Bytes} {pieces : Pieces} :
    Writable (piece :: pieces) ↔ (∃ bytes, piece = .ok bytes) ∧ pieces.Writable :=
  List.forall_mem_cons

@[simp] theorem writable_append {ps qs : Pieces} :
    Writable (ps ++ qs) ↔ ps.Writable ∧ qs.Writable :=
  List.forall_mem_append

@[simp] theorem writable_flatMap {α : Type} {form : α → Pieces} {as : List α} :
    Writable (as.flatMap form) ↔ ∀ a ∈ as, (form a).Writable := by
  simp only [Writable, List.mem_flatMap]
  exact ⟨fun h a ha piece hp => h piece ⟨a, ha, hp⟩, fun h piece ⟨a, ha, hp⟩ => h a ha piece hp⟩

@[simp] theorem writable_optional {α : Type} {form : α → Pieces} {o : Option α} :
    (optional form o).Writable ↔ ∀ a ∈ o, (form a).Writable := by
  cases o <;> simp [optional]

@[simp] theorem writable_ite {c : Prop} [Decidable c] {ps qs : Pieces} :
    (if c then ps else qs).Writable ↔ (c → ps.Writable) ∧ (¬ c → qs.Writable) := by
  split <;> simp [*]

theorem Writable.bytes {pieces : Pieces} (h : pieces.Writable) : ∃ form, pieces.bytes = .ok form := by
  induction pieces with
  | nil => exact ⟨[], rfl⟩
  | cons piece pieces ih =>
    obtain ⟨⟨front, hfront⟩, hrest⟩ := writable_cons.mp h
    obtain ⟨back, hback⟩ := ih hrest
    exact ⟨front ++ back, bytes_cons_eq_ok_iff.mpr ⟨front, back, hfront, hback, rfl⟩⟩

end Pieces

namespace Reader

variable {α β : Type} {P : α → Prop} {Q : β → Prop}

/-- Every value that the reader gives, on whatever channel, has the property. -/
def Ensures (r : Reader α) (P : α → Prop) : Prop :=
  ∀ ⦃s a s'⦄, r s = (.ok a, s') → P a

theorem Ensures.bind {r : Reader α} {f : α → Reader β} (hr : r.Ensures P)
    (hf : ∀ a, P a → (f a).Ensures Q) : (r >>= f).Ensures Q := by
  intro s b s' h
  obtain ⟨a, s₁, h₁, h₂⟩ := bind_eq_ok h
  exact hf a (hr h₁) h₂

/-- A value of which nothing is known. -/
theorem ensures_bind {r : Reader α} {f : α → Reader β} (hf : ∀ a, (f a).Ensures Q) :
    (r >>= f).Ensures Q := by
  intro s b s' h
  obtain ⟨a, s₁, -, h₂⟩ := bind_eq_ok h
  exact hf a h₂

theorem Ensures.ite {c : Prop} [Decidable c] {r r' : Reader α} (hr : c → r.Ensures P)
    (hr' : ¬ c → r'.Ensures P) : (if c then r else r').Ensures P := by
  split
  · exact hr ‹_›
  · exact hr' ‹_›

/-- A part that only some versions have. -/
theorem Ensures.ite_bind {c : Prop} [Decidable c] {r r' : Reader α} {f : α → Reader β}
    (hr : c → r.Ensures P) (hr' : ¬ c → r'.Ensures P) (hf : ∀ a, P a → (f a).Ensures Q) :
    (if c then r >>= f else r' >>= f).Ensures Q :=
  .ite (fun hc => (hr hc).bind hf) fun hc => (hr' hc).bind hf

theorem ensures_pure {a : α} (h : P a) : Ensures (pure a) P := by
  intro s a' s' hs
  obtain rfl := Except.ok.inj (congrArg Prod.fst hs)
  exact h

theorem ensures_fail (fault : Fault) : Ensures (fail fault) P := by
  intro s a s' hs
  simp [fail] at hs

theorem ensures_lift {x : Except Fault α} (h : ∀ a, x = .ok a → P a) : Ensures (lift x) P := by
  cases x with
  | error fault => exact ensures_fail fault
  | ok a => exact ensures_pure (h a rfl)

/-! ### Fields -/

theorem ensures_exactly (n : Nat) : Ensures (exactly n) (·.length = n) := by
  intro s bytes s' h
  obtain ⟨hn, rfl, -, -⟩ := Source.readFull_eq_ok h
  rw [List.length_take, Nat.min_eq_left hn]

theorem ensures_text (limit : Nat) :
    Ensures (text limit) fun s => ∃ form, Text.encode limit s = .ok form := by
  refine ensures_bind fun length => ensures_bind fun n => ensures_bind fun bytes => ?_
  refine ensures_lift fun s hs => ?_
  unfold Text.decode at hs
  split at hs
  · simp at hs
  split at hs
  · rename_i hlimit
    obtain rfl := Except.ok.inj hs
    exact ⟨_, if_pos hlimit⟩
  · simp at hs

theorem ensures_blob : Ensures blob fun bytes => ∃ form, Blob.encode bytes = .ok form := by
  refine ensures_bind fun length => .ite (fun _ => ensures_fail _) fun hneg s bytes s' h => ?_
  have hlength := ensures_exactly _ h
  have hmax : length.toInt ≤ 2 ^ 31 - 1 := Int.le_sub_one_of_lt length.toInt_lt
  have hbounds : FixedInteger.lower Int32 ≤ (bytes.length : Int) ∧
      (bytes.length : Int) ≤ FixedInteger.upper Int32 := by
    simp only [FixedInteger.lower, FixedInteger.upper]
    omega
  exact ⟨_, by rw [Blob.encode, narrow, narrowAs, if_pos hbounds]; rfl⟩

theorem Ensures.optional {r : Reader α} (hr : r.Ensures P) :
    (optional r).Ensures fun o => ∀ a ∈ o, P a := by
  refine ensures_bind fun present => .ite (fun _ => ?_) fun _ => ensures_pure (by simp)
  exact hr.bind fun a ha => ensures_pure (by simpa using ha)

theorem Ensures.times {r : Reader α} (hr : r.Ensures P) (n : Nat) :
    (times n r).Ensures fun as => as.length = n ∧ ∀ a ∈ as, P a := by
  have hfrom : ∀ acc : List α, (∀ a ∈ acc, P a) →
      (timesFrom r acc n).Ensures fun as => as.length = acc.length + n ∧ ∀ a ∈ as, P a := by
    induction n with
    | zero => exact fun acc hacc => ensures_pure (by simpa using hacc)
    | succ n ih =>
      refine fun acc hacc => hr.bind fun a ha s as s' h => ?_
      have := ih (a :: acc) (List.forall_mem_cons.mpr ⟨ha, hacc⟩) h
      rwa [List.length_cons, Nat.add_assoc, Nat.add_comm 1] at this
  intro s as s' h
  simpa using hfrom [] (by simp) h

/-! ### Parts of bodies -/

open Packet

theorem ensures_signingKey : Ensures signingKey fun key => (signingKeyPieces key).Writable := by
  refine ensures_bind fun expiresAt => ensures_blob.bind fun publicKey hpublic => ?_
  refine ensures_blob.bind fun signature hsignature => ensures_pure ?_
  simp [signingKeyPieces, hpublic, hsignature]

theorem ensures_property : Ensures property fun p => (propertyPieces p).Writable := by
  refine (ensures_text _).bind fun name hname => (ensures_text _).bind fun value hvalue => ?_
  refine (ensures_text _).optional.bind fun signature hsignature => ensures_pure ?_
  simpa [propertyPieces, hname, hvalue] using hsignature

theorem ensures_properties : Ensures properties fun ps =>
    Pieces.Writable (propertyCount ps.length :: ps.flatMap propertyPieces) := by
  refine ensures_bind fun count => .ite (fun _ => ensures_fail _) fun hneg s ps s' h => ?_
  obtain ⟨hlength, hps⟩ := ensures_property.times _ h
  have hcount := count.toInt_lt
  refine Pieces.writable_cons.mpr ⟨⟨_, if_pos ?_⟩, Pieces.writable_flatMap.mpr hps⟩
  omega

theorem ensures_verification (v : Version) :
    Ensures (verification v) fun x => (verificationPieces v x).Writable := by
  refine Ensures.ite_bind (P := fun token => token = false → v.hasSignedLogin)
    (fun hv s token s' _ _ => hv) (fun hv => ensures_pure (by simp)) fun token htoken => ?_
  refine .ite (fun _ => ?_) fun hsignature => ?_
  · refine ensures_blob.bind fun bytes hbytes => ensures_pure ?_
    simp [verificationPieces, hbytes]
  · refine ensures_bind fun salt => ensures_blob.bind fun bytes hbytes => ensures_pure ?_
    simp [verificationPieces, htoken (by simpa using hsignature), hbytes]

end Reader

namespace UuidText

theorem length_format (u : Uuid) : (format u).length = 36 := by
  have hlength := length_digits u
  simp only [format, String.length_ofList, List.length_append, List.length_cons, List.length_take,
    List.length_drop, hlength]
  decide

end UuidText

/-! ### Packets -/

/-- A UUID is written in every version, be it in binary or as text. -/
theorem Packet.exists_uuid_eq (v : Version) (uuid : Uuid) :
    ∃ form, (if v.hasBinaryUuid then .ok (FixedWidth.put uuid)
      else Text.encode maxUuidText (UuidText.format uuid)) = .ok form := by
  split
  · exact ⟨_, rfl⟩
  · exact ⟨_, if_pos (by rw [UuidText.length_format]; decide)⟩

/-- The packet has no field that the version lacks, and its body can be written. -/
structure Packet.Normal (v : Version) (p : Packet) : Prop where
  erase_eq : p.erase v = p
  writable : (p.pieces v).Writable

namespace Reader

open Packet

theorem ensures_handshake (v : Version) :
    handshake.Ensures fun p => (Packet.handshake p).Normal v := by
  refine ensures_bind fun version => (ensures_text _).bind fun address haddress => ?_
  refine ensures_bind fun port => ensures_bind fun code => ensures_bind fun next => ?_
  exact ensures_pure ⟨rfl, by simp [pieces, haddress]⟩

theorem ensures_loginStart (v : Version) :
    (loginStart v).Ensures fun p => (Packet.loginStart p).Normal v := by
  refine (ensures_text _).bind fun name hname => ?_
  -- a field that the version lacks is read as absent, which is what erasing leaves of it
  refine Ensures.ite_bind (P := fun key => (if v.hasSignedLogin then key else none) = key ∧
      ∀ k ∈ key, (signingKeyPieces k).Writable) (fun hv s key s' h => ?_)
    (fun hv => ensures_pure (by simp)) fun key hkey => ?_
  · exact ⟨if_pos hv, ensures_signingKey.optional h⟩
  refine Ensures.ite_bind (P := fun uuid => (if v.hasLoginUuid then uuid else none) = uuid)
    (fun hv s uuid s' _ => if_pos hv) (fun hv => ensures_pure (by simp)) fun uuid huuid => ?_
  refine ensures_pure ⟨?_, ?_⟩
  · rw [erase, hkey.1, huuid]
  · simpa [pieces, hname] using fun _ => hkey.2

theorem ensures_loginSuccess (v : Version) :
    (loginSuccess v).Ensures fun p => (Packet.loginSuccess p).Normal v := by
  have hprofile : ∀ uuid, Ensures (do
      let username ← text maxUsername
      let properties ← if v.hasProperties then properties else pure []
      return (⟨uuid, username, properties⟩ : LoginSuccess))
        fun p => (Packet.loginSuccess p).Normal v := by
    intro uuid
    refine (ensures_text _).bind fun username hname => ?_
    refine Ensures.ite_bind (P := fun ps => (if v.hasProperties then ps else []) = ps ∧
        (v.hasProperties → Pieces.Writable (propertyCount ps.length :: ps.flatMap propertyPieces)))
      (fun hv s ps s' h => ⟨if_pos hv, fun _ => ensures_properties h⟩)
      (fun hv => ensures_pure (by simp [hv])) fun ps hps => ensures_pure ⟨?_, ?_⟩
    · rw [erase, hps.1]
    · simpa [pieces, exists_uuid_eq v uuid, hname] using hps.2
  exact .ite (fun _ => ensures_bind hprofile) fun _ => ensures_bind fun _ => ensures_bind hprofile

end Reader

open Reader in
/-- A packet that is read is of the kind it is read as, and normal in its version. -/
theorem PacketKind.ensures_body (v : Version) (kind : PacketKind) :
    (kind.body v).Ensures fun p => p.kind = kind ∧ p.Normal v := by
  cases kind with
  | handshake => exact (ensures_handshake v).bind fun p hp => ensures_pure ⟨rfl, hp⟩
  | statusRequest => exact ensures_pure ⟨rfl, rfl, by simp [Packet.pieces]⟩
  | statusResponse =>
    exact (ensures_text _).bind fun json h => ensures_pure ⟨rfl, rfl, by simp [Packet.pieces, h]⟩
  | ping => exact ensures_bind fun payload => ensures_pure ⟨rfl, rfl, by simp [Packet.pieces]⟩
  | loginStart => exact (ensures_loginStart v).bind fun p hp => ensures_pure ⟨rfl, hp⟩
  | loginDisconnect =>
    exact (ensures_text _).bind fun reason h => ensures_pure ⟨rfl, rfl, by simp [Packet.pieces, h]⟩
  | encryptionRequest =>
    refine (ensures_text _).bind fun serverId hserver => ensures_blob.bind fun key hkey => ?_
    refine ensures_blob.bind fun token htoken => ensures_pure ⟨rfl, rfl, ?_⟩
    simp [Packet.pieces, hserver, hkey, htoken]
  | encryptionResponse =>
    refine ensures_blob.bind fun secret hsecret => (ensures_verification v).bind fun x hx => ?_
    exact ensures_pure ⟨rfl, rfl, by simpa [Packet.pieces, hsecret] using hx⟩
  | loginSuccess => exact (ensures_loginSuccess v).bind fun p hp => ensures_pure ⟨rfl, hp⟩
  | setCompression =>
    exact ensures_bind fun threshold => ensures_pure ⟨rfl, rfl, by simp [Packet.pieces]⟩
  | loginPluginRequest =>
    refine ensures_bind fun id => (ensures_text _).bind fun channel hchannel => ?_
    exact ensures_bind fun data => ensures_pure ⟨rfl, rfl, by simp [Packet.pieces, hchannel]⟩
  | loginPluginResponse =>
    refine ensures_bind fun id => ensures_bind fun data => ensures_pure ⟨rfl, rfl, ?_⟩
    simp [Packet.pieces]

/-- A normal packet is read back from its body as it is. -/
theorem Packet.Normal.read_body {v : Version} {p : Packet} (h : p.Normal v) :
    ∃ form, p.body v = .ok form ∧ (p.kind.body v).run form = (.ok p, []) := by
  obtain ⟨form, hform⟩ := h.writable.bytes
  have hread := (p.reads_body v [] (fun _ => rfl) form hform).run_all
  rw [h.erase_eq] at hread
  exact ⟨form, hform, hread⟩

end MinecraftWire
