import MinecraftWire.Packet.Body
import MinecraftWire.Proofs.Packet.UuidText
import MinecraftWire.Proofs.Text.Field

/-! Packet bodies. In every version the reader of a packet's kind takes the written body and gives
the packet back, without the fields for which that version has no place. Bodies that end with all
remaining bytes have to be the last thing in their channel. -/

namespace MinecraftWire

namespace Packet

/-- The packet without the fields that a version's layout does not carry. -/
def erase (v : Version) : Packet → Packet
  | loginStart p =>
    loginStart ⟨p.name, if v.hasSignedLogin then p.signingKey else none,
      if v.hasLoginUuid then p.uuid else none⟩
  | loginSuccess p =>
    loginSuccess ⟨p.uuid, p.username, if v.hasProperties then p.properties else []⟩
  | p => p

/-- Whether the last field of the body goes on to the end of its channel. -/
def Absorbs : Packet → Prop
  | loginPluginRequest _ => True
  | loginPluginResponse p => p.data.isSome
  | _ => False

instance : DecidablePred Absorbs := fun p =>
  match p with
  | loginPluginRequest _ => .isTrue trivial
  | loginPluginResponse p => inferInstanceAs (Decidable (p.data.isSome = true))
  | handshake _ | statusRequest | statusResponse _ | ping _ | loginStart _ | loginDisconnect _
  | encryptionRequest _ | encryptionResponse _ | loginSuccess _ | setCompression _ => .isFalse not_false

/-- The packet whose last field has taken in the bytes behind it, if it is one that does. -/
def absorb (rest : Bytes) : Packet → Packet
  | loginPluginRequest p => loginPluginRequest { p with data := p.data ++ rest }
  | loginPluginResponse p => loginPluginResponse { p with data := p.data.map (· ++ rest) }
  | p => p

theorem kind_absorb (rest : Bytes) (p : Packet) : (p.absorb rest).kind = p.kind := by
  cases p <;> rfl

theorem absorb_of_not_absorbs {p : Packet} (hp : ¬ p.Absorbs) (rest : Bytes) :
    p.absorb rest = p := by
  cases p with
  | loginPluginRequest p => exact absurd trivial hp
  | loginPluginResponse p =>
    obtain ⟨id, _ | data⟩ := p
    · rfl
    · exact absurd rfl hp
  | _ => rfl

/-- Bytes behind the body of such a packet lengthen its last field. -/
theorem body_absorb {v : Version} {p : Packet} {form : Bytes} (hp : p.Absorbs)
    (h : p.body v = .ok form) (rest : Bytes) : (p.absorb rest).body v = .ok (form ++ rest) := by
  cases p with
  | loginPluginRequest p =>
    obtain ⟨id, back, hid, hback, rfl⟩ := Pieces.bytes_cons_eq_ok_iff.mp h
    obtain ⟨channel, data, hchannel, hdata, rfl⟩ := Pieces.bytes_cons_eq_ok_iff.mp hback
    obtain rfl : p.data = data := by simpa [Pieces.bytes_cons, Except.bind, Except.map] using hdata
    refine Pieces.bytes_cons_eq_ok_iff.mpr ⟨id, _, hid,
      Pieces.bytes_cons_eq_ok_iff.mpr ⟨channel, _, hchannel, rfl, rfl⟩, ?_⟩
    simp [Pieces.assemble]
  | loginPluginResponse p =>
    obtain ⟨id, _ | data⟩ := p
    · contradiction
    · obtain rfl := Except.ok.inj h
      simp [body, Packet.absorb, pieces, Pieces.optional, Pieces.bytes, Pieces.assemble]
  | _ => exact hp.elim

end Packet

namespace Reader

open Packet

variable (v : Version) (rest : Bytes)

/-! ### Parts of bodies -/

theorem reads_signingKey (key : SigningKey) (rest : Bytes) :
    signingKey.Reads (signingKeyPieces key) rest key :=
  Reads.cons (reads_value key.expiresAt) <| Reads.cons (reads_blob key.publicKey) <|
    (reads_blob key.signature rest).map _

theorem reads_property (property : Property) (rest : Bytes) :
    Reader.property.Reads (propertyPieces property) rest property :=
  Reads.cons (reads_text (by decide) property.name) <|
    Reads.cons (reads_text (by decide) property.value) <|
      (reads_optional fun s _ => reads_text (by decide) s rest).map _

theorem reads_properties (properties : List Property) :
    Reader.properties.Reads
      (propertyCount properties.length :: properties.flatMap propertyPieces) rest properties := by
  unfold propertyCount
  split
  · rename_i hcount
    obtain ⟨hneg, hnat⟩ := toInt_ofNat_toNat hcount
    apply Reads.cons (reads_varInt _)
    rw [if_neg hneg, hnat]
    exact reads_times reads_property properties rest
  · intro form h
    simp [Pieces.bytes, Pieces.assemble] at h

theorem reads_verification (verification : Verification) :
    (Reader.verification v).Reads (verificationPieces v verification) rest verification := by
  unfold Reader.verification verificationPieces
  cases verification with
  | token bytes =>
    by_cases hv : v.hasSignedLogin
    · simp only [hv, if_true]
      exact Reads.cons (reads_value true) ((reads_blob bytes rest).map _)
    · simp only [hv]
      exact (reads_blob bytes rest).map _
  | signature salt bytes =>
    by_cases hv : v.hasSignedLogin
    · simp only [hv, if_true]
      exact Reads.cons (reads_value false) <| Reads.cons (reads_value salt) <|
        (reads_blob bytes rest).map _
    · simp only [hv]
      intro form h
      simp [Pieces.bytes, Pieces.assemble] at h

theorem reads_handshake (p : Handshake) :
    Reader.handshake.Reads ((Packet.handshake p).pieces v) rest p := by
  have hstate : NextState.ofCode p.nextState.code = .ok p.nextState := by
    cases p.nextState <;> rfl
  exact Reads.cons (reads_varInt p.protocolVersion) <|
    Reads.cons (reads_text (by decide) p.serverAddress) <|
      Reads.cons (reads_value p.serverPort) <|
        Reads.cons (reads_varInt p.nextState.code) <| Reads.lift_bind hstate (reads_pure p rest)

theorem reads_loginStart (p : LoginStart) :
    (Reader.loginStart v).Reads ((Packet.loginStart p).pieces v) rest
      ⟨p.name, if v.hasSignedLogin then p.signingKey else none,
        if v.hasLoginUuid then p.uuid else none⟩ := by
  unfold Reader.loginStart
  simp only [Packet.pieces, List.cons_append, List.nil_append]
  apply Reads.cons (reads_text (by decide) p.name)
  have huuid : ∀ key, (do
      let uuid ← if v.hasLoginUuid then optional (value Uuid) else pure none
      return (⟨p.name, key, uuid⟩ : LoginStart)).Reads
        (if v.hasLoginUuid then Pieces.optional (fun u => [.ok (FixedWidth.put u)]) p.uuid else [])
        rest ⟨p.name, key, if v.hasLoginUuid then p.uuid else none⟩ := by
    intro key
    by_cases hu : v.hasLoginUuid
    · simp only [hu, if_true]
      exact (reads_optional fun u _ => reads_value u rest).map _
    · simp only [hu]
      exact reads_pure _ rest
  by_cases hv : v.hasSignedLogin
  · simp only [hv, if_true]
    exact Reads.bind (fun rest => reads_optional fun key _ => reads_signingKey key rest) (huuid _)
  · simp only [hv]
    exact huuid none

/-- What follows the UUID of a login success. -/
theorem reads_profile (p : LoginSuccess) :
    (do
      let username ← text maxUsername
      let properties ← if v.hasProperties then properties else pure []
      return (⟨p.uuid, username, properties⟩ : LoginSuccess)).Reads
        ([Text.encode maxUsername p.username] ++ if v.hasProperties then
          propertyCount p.properties.length :: p.properties.flatMap propertyPieces else [])
        rest ⟨p.uuid, p.username, if v.hasProperties then p.properties else []⟩ := by
  apply Reads.cons (reads_text (by decide) p.username)
  by_cases hv : v.hasProperties
  · simp only [hv, if_true]
    exact (reads_properties rest p.properties).map _
  · simp only [hv]
    exact reads_pure _ rest

theorem reads_loginSuccess (p : LoginSuccess) :
    (Reader.loginSuccess v).Reads ((Packet.loginSuccess p).pieces v) rest
      ⟨p.uuid, p.username, if v.hasProperties then p.properties else []⟩ := by
  have hprofile := reads_profile v rest p
  unfold Reader.loginSuccess
  simp only [Packet.pieces, List.cons_append, List.nil_append] at hprofile ⊢
  by_cases hv : v.hasBinaryUuid
  · simp only [hv, if_true]
    exact Reads.cons (reads_value p.uuid) hprofile
  · simp only [hv, Bool.false_eq_true, if_false]
    exact Reads.cons (reads_text (by decide) _) <|
      Reads.lift_bind (UuidText.parse_format p.uuid) hprofile

theorem reads_loginPluginRequest (p : LoginPluginRequest) :
    (PacketKind.loginPluginRequest.body v).Reads ((Packet.loginPluginRequest p).pieces v) []
      (.loginPluginRequest p) :=
  Reads.cons (reads_varInt p.messageId) <| Reads.cons (reads_text (by decide) p.channel) <|
    (takes_remaining p.data).reads.map _

theorem reads_loginPluginResponse (p : LoginPluginResponse)
    (hrest : (Packet.loginPluginResponse p).Absorbs → rest = []) :
    (PacketKind.loginPluginResponse.body v).Reads ((Packet.loginPluginResponse p).pieces v) rest
      (.loginPluginResponse p) := by
  apply Reads.cons (reads_varInt p.messageId)
  refine (reads_optional fun data hdata => ?_).map _
  rw [hrest (by simp [Packet.Absorbs, hdata])]
  exact (takes_remaining data).reads

end Reader

open Reader in
/-- A written body is read back, without the fields that the version lacks. -/
theorem Packet.reads_body (v : Version) (p : Packet) (rest : Bytes) (hrest : p.Absorbs → rest = []) :
    (p.kind.body v).Reads (p.pieces v) rest (p.erase v) := by
  cases p with
  | handshake p => exact (reads_handshake v rest p).map _
  | statusRequest => exact reads_pure _ rest
  | statusResponse json => exact (reads_text (by decide) json rest).map _
  | ping payload => exact (reads_value payload rest).map _
  | loginStart p => exact (reads_loginStart v rest p).map _
  | loginDisconnect reason => exact (reads_text (by decide) reason rest).map _
  | encryptionRequest p =>
    exact Reads.cons (reads_text (by decide) p.serverId) <|
      Reads.cons (reads_blob p.publicKey) <| (reads_blob p.verifyToken rest).map _
  | encryptionResponse p =>
    exact Reads.cons (reads_blob p.sharedSecret) <| (reads_verification v rest p.verification).map _
  | loginSuccess p => exact (reads_loginSuccess v rest p).map _
  | setCompression threshold => exact (reads_varInt threshold rest).map _
  | loginPluginRequest p =>
    rw [hrest trivial]
    exact reads_loginPluginRequest v p
  | loginPluginResponse p => exact reads_loginPluginResponse v rest p hrest

/-- What a body with any bytes behind it is read as, and what is left of them. -/
theorem Packet.run_body {v : Version} {p : Packet} {form : Bytes} (h : p.body v = .ok form)
    (rest : Bytes) : (p.kind.body v).run (form ++ rest) =
      (.ok ((p.absorb rest).erase v), if p.Absorbs then [] else rest) := by
  by_cases hp : p.Absorbs
  · rw [if_pos hp, ← kind_absorb rest p]
    exact ((p.absorb rest).reads_body v [] (fun _ => rfl) _ (body_absorb hp h rest)).run_all
  · rw [if_neg hp, absorb_of_not_absorbs hp]
    exact (p.reads_body v rest (fun habsorbs => absurd habsorbs hp) form h).run

end MinecraftWire
