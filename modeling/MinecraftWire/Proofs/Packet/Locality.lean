import MinecraftWire.Proofs.Packet.Body

/-! A reader that succeeds has seen no byte behind those it took: on any channel that begins with the
same bytes it gives the same value and leaves whatever follows. Only a field that goes on to the end
of its channel is different. -/

namespace MinecraftWire

namespace Reader

variable {α β : Type}

/-! ### Local readers -/

/-- The way from `s` to `s'` takes some bytes, and these alone are why the reader gives `a`. -/
structure TakesOnly (r : Reader α) (s s' : Source) (a : α) : Prop where
  failing : s'.failing = false
  front : ∃ front, s.pending = front ++ s'.pending ∧ ∀ rest, r.Takes front rest a

/-- Every success comes from the bytes that it takes. -/
def Local (r : Reader α) : Prop :=
  ∀ ⦃s a s'⦄, s.failing = false → r s = (.ok a, s') → r.TakesOnly s s' a

theorem TakesOnly.bind {r : Reader α} {f : α → Reader β} {s s₁ s' : Source} {a : α} {b : β}
    (hr : r.TakesOnly s s₁ a) (hf : (f a).TakesOnly s₁ s' b) : (r >>= f).TakesOnly s s' b := by
  obtain ⟨front, hfront, htakes⟩ := hr.front
  obtain ⟨next, hnext, htakes'⟩ := hf.front
  refine ⟨hf.failing, front ++ next, ?_, fun rest => (htakes _).bind (htakes' rest)⟩
  rw [hfront, hnext, List.append_assoc]

theorem Local.bind {r : Reader α} {f : α → Reader β} (hr : r.Local) (hf : ∀ a, (f a).Local) :
    (r >>= f).Local := by
  intro s b s' hs h
  obtain ⟨a, s₁, h₁, h₂⟩ := bind_eq_ok h
  have htaken := hr hs h₁
  exact htaken.bind (hf a htaken.failing h₂)

theorem Local.ite {c : Prop} [Decidable c] {r r' : Reader α} (hr : r.Local) (hr' : r'.Local) :
    (if c then r else r').Local := by
  split
  · exact hr
  · exact hr'

/-- A part that only some versions have. -/
theorem Local.ite_bind {c : Prop} [Decidable c] {r r' : Reader α} {f : α → Reader β} (hr : r.Local)
    (hr' : r'.Local) (hf : ∀ a, (f a).Local) : (if c then r >>= f else r' >>= f).Local :=
  (hr.bind hf).ite (hr'.bind hf)

theorem local_pure (a : α) : Local (pure a) := by
  intro s a' s' hs h
  obtain ⟨hok, rfl⟩ := Prod.mk.inj h
  obtain rfl := Except.ok.inj hok
  exact ⟨hs, [], rfl, takes_pure a⟩

theorem local_fail (fault : Fault) : Local (fail fault : Reader α) := by
  intro s a s' _ h
  simp [fail] at h

theorem local_lift (x : Except Fault α) : Local (lift x) := by
  cases x with
  | error fault => exact local_fail fault
  | ok a => exact local_pure a

theorem Local.map {r : Reader α} (hr : r.Local) (f : α → β) : (r >>= fun a => pure (f a)).Local :=
  hr.bind fun _ => local_pure _

/-- Bytes added at the end of the channel stay there. -/
theorem TakesOnly.run_append {r : Reader α} {bytes : Bytes} {s' : Source} {a : α}
    (h : r.TakesOnly (.ofBytes bytes) s' a) (ext : Bytes) :
    r.run (bytes ++ ext) = (.ok a, s'.pending ++ ext) := by
  obtain ⟨front, hfront, htakes⟩ := h.front
  change bytes = front ++ s'.pending at hfront
  rw [hfront, List.append_assoc]
  exact (htakes _).run

theorem Local.run_append {r : Reader α} (hr : r.Local) {bytes rest : Bytes} {a : α}
    (h : r.run bytes = (.ok a, rest)) (ext : Bytes) : r.run (bytes ++ ext) = (.ok a, rest ++ ext) := by
  obtain ⟨s', hread, rfl⟩ := run_eq_ok h
  exact (hr rfl hread).run_append ext

/-! ### Fields -/

theorem local_exactly (n : Nat) : Local (exactly n) := by
  intro s bytes s' hs h
  obtain ⟨hn, rfl, hp, hf⟩ := Source.readFull_eq_ok h
  refine ⟨hf.trans hs, _, by rw [hp, List.take_append_drop], fun rest => ?_⟩
  have htakes := takes_exactly (s.pending.take n) rest
  rwa [List.length_take, Nat.min_eq_left hn] at htakes

theorem local_varInt : Local varInt := by
  intro s v s' hs h
  have hread := readsPeeked_varInt hs
  rw [h] at hread
  rcases hpeek : VarInt.peek s.pending with fault | _ | ⟨w, taken⟩
  · rw [hpeek] at hread
    obtain ⟨_, hread⟩ := hread
    simp at hread
  · rw [hpeek] at hread
    obtain ⟨_, hread, -⟩ := hread
    simp at hread
  rw [hpeek] at hread
  obtain ⟨s₁, hread, hp, hf⟩ := hread
  obtain ⟨hok, rfl⟩ := Prod.mk.inj hread
  obtain rfl := Except.ok.inj hok
  rw [List.length_nil, Nat.sub_zero] at hp
  refine ⟨hf, s.pending.take taken, by rw [hp, List.take_append_drop], fun rest t ht hpending => ?_⟩
  have hagain := readsPeeked_varInt ht
  rw [hpending, VarInt.peek_take_append hpeek] at hagain
  obtain ⟨t', hread', hp', hf'⟩ := hagain
  refine ⟨t', hread', ?_, hf'⟩
  have htaken := (VarInt.length_of_peek hpeek).2
  rw [hp', hpending, List.length_nil, Nat.sub_zero]
  exact List.drop_left' (by rw [List.length_take, Nat.min_eq_left htaken])

theorem local_value (α : Type) [FixedWidth α] : Local (value α) :=
  (local_exactly _).bind fun _ => local_lift _

theorem local_text (limit : Nat) : Local (text limit) :=
  local_varInt.bind fun _ => (local_lift _).bind fun _ => (local_exactly _).bind fun _ => local_lift _

theorem local_blob : Local blob :=
  local_varInt.bind fun _ => (local_fail _).ite (local_exactly _)

theorem Local.optional {r : Reader α} (hr : r.Local) : (optional r).Local :=
  (local_value Bool).bind fun _ => (hr.map some).ite (local_pure none)

/-- An absent value takes its flag only, whatever reader there is for a value. -/
theorem takesOnly_optional_none {r : Reader α} {s s' : Source} (hs : s.failing = false)
    (h : optional r s = (.ok none, s')) : (optional r).TakesOnly s s' none := by
  obtain ⟨present, s₁, hflag, h⟩ := bind_eq_ok h
  have hflag := local_value Bool hs hflag
  cases present with
  | true =>
    obtain ⟨a, s₂, -, h⟩ := bind_eq_ok h
    exact absurd (congrArg Prod.fst h) (by simp [pure, Reader.pure])
  | false => exact hflag.bind (local_pure none hflag.failing h)

theorem Local.times {r : Reader α} (hr : r.Local) (n : Nat) : (times n r).Local := by
  unfold Reader.times
  generalize ([] : List α) = acc
  induction n generalizing acc with
  | zero => exact local_pure _
  | succ n ih => exact hr.bind fun a => ih (a :: acc)

/-! ### Packets -/

theorem local_signingKey : Local signingKey :=
  (local_value Int64).bind fun _ => local_blob.bind fun _ => local_blob.map _

theorem local_property : Local property :=
  (local_text _).bind fun _ => (local_text _).bind fun _ => (local_text _).optional.map _

theorem local_properties : Local properties :=
  local_varInt.bind fun _ => (local_fail _).ite (local_property.times _)

theorem local_handshake : Local handshake :=
  local_varInt.bind fun _ => (local_text _).bind fun _ => (local_value UInt16).bind fun _ =>
    local_varInt.bind fun _ => (local_lift _).map _

theorem local_loginStart (v : Version) : Local (loginStart v) :=
  (local_text _).bind fun _ => local_signingKey.optional.ite_bind (local_pure none) fun _ =>
    (local_value Uuid).optional.ite_bind (local_pure none) fun _ => local_pure _

theorem local_verification (v : Version) : Local (verification v) :=
  (local_value Bool).ite_bind (local_pure true) fun _ =>
    (local_blob.map _).ite ((local_value Int64).bind fun _ => local_blob.map _)

theorem local_loginSuccess (v : Version) : Local (loginSuccess v) := by
  have hprofile : ∀ uuid, Local (do
      let username ← text Packet.maxUsername
      let properties ← if v.hasProperties then properties else pure []
      return (⟨uuid, username, properties⟩ : LoginSuccess)) := fun uuid =>
    (local_text _).bind fun _ => local_properties.ite_bind (local_pure []) fun _ => local_pure _
  exact ((local_value Uuid).bind hprofile).ite
    ((local_text _).bind fun _ => (local_lift _).bind hprofile)

end Reader

open Reader in
/-- A body that does not go on to the end of its channel takes its own bytes only. -/
theorem PacketKind.takesOnly_body {v : Version} {kind : PacketKind} {s s' : Source} {p : Packet}
    (hs : s.failing = false) (h : kind.body v s = (.ok p, s')) (hp : ¬ p.Absorbs) :
    (kind.body v).TakesOnly s s' p := by
  cases kind with
  | handshake => exact local_handshake.map _ hs h
  | statusRequest => exact local_pure _ hs h
  | statusResponse => exact (local_text _).map _ hs h
  | ping => exact (local_value Int64).map _ hs h
  | loginStart => exact (local_loginStart v).map _ hs h
  | loginDisconnect => exact (local_text _).map _ hs h
  | encryptionRequest =>
    exact ((local_text _).bind fun _ => local_blob.bind fun _ => local_blob.map _) hs h
  | encryptionResponse =>
    exact (local_blob.bind fun _ => (local_verification v).map _) hs h
  | loginSuccess => exact (local_loginSuccess v).map _ hs h
  | setCompression => exact local_varInt.map _ hs h
  | loginPluginRequest =>
    obtain ⟨_, _, -, h⟩ := bind_eq_ok h
    obtain ⟨_, _, -, h⟩ := bind_eq_ok h
    obtain ⟨_, _, -, h⟩ := bind_eq_ok h
    obtain rfl := Except.ok.inj (congrArg Prod.fst h)
    exact absurd trivial hp
  | loginPluginResponse =>
    -- a response stops before the end if it has no data
    obtain ⟨id, s₁, hid, h⟩ := bind_eq_ok h
    obtain ⟨data, s₂, hdata, h⟩ := bind_eq_ok h
    have hid := local_varInt hs hid
    obtain rfl := Except.ok.inj (congrArg Prod.fst h)
    obtain rfl : data = none := by simpa [Packet.Absorbs] using hp
    have hdata := takesOnly_optional_none hid.failing hdata
    exact hid.bind (hdata.bind (local_pure _ hdata.failing h))

theorem PacketKind.run_body_append {v : Version} {kind : PacketKind} {bytes rest : Bytes} {p : Packet}
    (h : (kind.body v).run bytes = (.ok p, rest)) (hp : ¬ p.Absorbs) (ext : Bytes) :
    (kind.body v).run (bytes ++ ext) = (.ok p, rest ++ ext) := by
  obtain ⟨s', hread, rfl⟩ := Reader.run_eq_ok h
  exact (takesOnly_body rfl hread hp).run_append ext

end MinecraftWire
