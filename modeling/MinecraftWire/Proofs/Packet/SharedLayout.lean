import MinecraftWire.Frame
import MinecraftWire.Proofs.Registry
import MinecraftWire.Proofs.Text.Field

/-! Versions that share their layouts. A layout asks five things of its version and nothing else, so
two versions that answer them alike declare the same packet types, write the same bodies and read
the same packets. A version that falls back on an older one as compatible answers like that one, and
such a fallback leaves no trace on the wire. -/

namespace MinecraftWire

/-! ### What layouts ask of a version -/

/-- No layout tells the two versions apart. -/
structure Version.Alike (v w : Version) : Prop where
  pluginMessages : v.hasPluginMessages = w.hasPluginMessages
  binaryUuid : v.hasBinaryUuid = w.hasBinaryUuid
  signedLogin : v.hasSignedLogin = w.hasSignedLogin
  loginUuid : v.hasLoginUuid = w.hasLoginUuid
  properties : v.hasProperties = w.hasProperties

instance (v w : Version) : Decidable (v.Alike w) :=
  decidable_of_iff (v.hasPluginMessages = w.hasPluginMessages ∧ v.hasBinaryUuid = w.hasBinaryUuid ∧
      v.hasSignedLogin = w.hasSignedLogin ∧ v.hasLoginUuid = w.hasLoginUuid ∧
      v.hasProperties = w.hasProperties)
    ⟨fun ⟨h₁, h₂, h₃, h₄, h₅⟩ => ⟨h₁, h₂, h₃, h₄, h₅⟩,
      fun ⟨h₁, h₂, h₃, h₄, h₅⟩ => ⟨h₁, h₂, h₃, h₄, h₅⟩⟩

/-! ### Forms up to the wording of faults -/

namespace Pieces

/-- Forms whose pieces are the same, up to faults of one kind, are the same in this sense too. -/
theorem bytes_congr_kind {ps qs : Pieces}
    (h : ps.map (·.mapError Fault.kind) = qs.map (·.mapError Fault.kind)) :
    ps.bytes.mapError Fault.kind = qs.bytes.mapError Fault.kind := by
  induction ps generalizing qs with
  | nil =>
    obtain rfl := List.map_eq_nil_iff.mp h.symm
    rfl
  | cons p ps ih =>
    obtain ⟨q, qs, rfl, hpiece, hrest⟩ := List.map_eq_cons_iff.mp h.symm
    have hbytes := ih hrest.symm
    rw [bytes_cons, bytes_cons]
    rcases p with fault | front <;> rcases q with fault' | front' <;>
      simp only [Except.mapError, Except.error.injEq, Except.ok.injEq, reduceCtorEq] at hpiece
    · simp [Except.bind, Except.mapError, hpiece]
    · subst hpiece
      rcases hps : bytes ps with f | b <;> rcases hqs : bytes qs with f' | b' <;>
        simp_all [Except.bind, Except.map, Except.mapError]

end Pieces

/-! ### Bodies -/

namespace Version.Alike

variable {v w : Version}

/-- Alike versions lay out a packet's body in the same pieces. A signature in versions without
signed logins is the one fault that tells its version. -/
theorem pieces_congr (h : v.Alike w) (p : Packet) :
    (p.pieces v).map (·.mapError Fault.kind) = (p.pieces w).map (·.mapError Fault.kind) := by
  cases p with
  | loginStart p => simp only [Packet.pieces, h.signedLogin, h.loginUuid]
  | encryptionResponse p =>
    obtain ⟨secret, _ | ⟨salt, signature⟩⟩ := p
    · simp only [Packet.pieces, Packet.verificationPieces, h.signedLogin]
    · cases hw : w.hasSignedLogin <;>
        simp [Packet.pieces, Packet.verificationPieces, h.signedLogin, hw, Except.mapError,
          Fault.kind]
  | loginSuccess p => simp only [Packet.pieces, h.binaryUuid, h.properties]
  | _ => rfl

theorem body_congr (h : v.Alike w) (p : Packet) :
    (p.body v).mapError Fault.kind = (p.body w).mapError Fault.kind :=
  Pieces.bytes_congr_kind (h.pieces_congr p)

/-- Alike versions read a body in the same way, from every channel. -/
theorem reader_congr (h : v.Alike w) (kind : PacketKind) : kind.body v = kind.body w := by
  cases kind with
  | loginStart => simp only [PacketKind.body, Reader.loginStart, h.signedLogin, h.loginUuid]
  | encryptionResponse => simp only [PacketKind.body, Reader.verification, h.signedLogin]
  | loginSuccess => simp only [PacketKind.body, Reader.loginSuccess, h.binaryUuid, h.properties]
  | _ => rfl

end Version.Alike

/-! ### Frames -/

/-- Frames are laid out for the effective version, so versions that have it in common have their
frames in common. -/
theorem Frame.encode_congr {s : FrameSettings} {v w : Version} {r r' : Version.Resolution}
    (hv : v.resolve = .ok r) (hw : w.resolve = .ok r') (h : r.effective = r'.effective)
    (p : Packet) : encode s v p = encode s w p := by
  simp only [encode, hv, hw, h, bind, Except.bind]

/-! ### Compatible versions -/

namespace Version

theorem alike_of_compatible {v w : Version} (h : (v, w) ∈ compatible) : v.Alike w := by
  have hall : ∀ e ∈ compatible, e.1.Alike e.2 := by decide
  exact hall (v, w) h

/-- A compatible version is not supported itself, and its partner is the nearest older one that is.
-/
theorem resolve_of_compatible {v w : Version} (h : (v, w) ∈ compatible) :
    v.resolve = .ok ⟨v, w, .compatible⟩ ∧ w.resolve = .ok ⟨w, w, .exact⟩ := by
  have hall : ∀ e ∈ compatible, e.1.resolve? = some ⟨e.1, e.2, .compatible⟩ ∧
      e.2.resolve? = some ⟨e.2, e.2, .exact⟩ := by decide
  obtain ⟨hv, hw⟩ := hall (v, w) h
  exact ⟨by rw [resolve, hv], by rw [resolve, hw]⟩

/-- A fallback that is not reported changes nothing on the wire: the version declares the packet
types of the one it falls back on, writes the same body for every packet or fails with the same kind
of fault, reads every kind of packet in the same way, and has the same frames under all settings. -/
theorem compatible_shares_wire {v w : Version} (h : (v, w) ∈ compatible) :
    v.resolve = .ok ⟨v, w, .compatible⟩ ∧
      PacketType.declared v = PacketType.declared w ∧
      (∀ p : Packet, (p.body v).mapError Fault.kind = (p.body w).mapError Fault.kind) ∧
      (∀ kind : PacketKind, kind.body v = kind.body w) ∧
      ∀ (s : FrameSettings) (p : Packet), Frame.encode s v p = Frame.encode s w p := by
  have halike := alike_of_compatible h
  obtain ⟨hv, hw⟩ := resolve_of_compatible h
  exact ⟨hv, PacketType.declared_congr halike.pluginMessages, halike.body_congr,
    halike.reader_congr, fun _ p => Frame.encode_congr hv hw rfl p⟩

/-- A signature has no place in 1.18.2 nor in 1.18.1, and the two say so in different words. -/
theorem compatible_shares_wire_signature :
    let p : Packet := .encryptionResponse ⟨[1], .signature 2 [3]⟩
    p.body ⟨758⟩ = .error (.format (.noSignature ⟨758⟩)) ∧
      p.body ⟨757⟩ = .error (.format (.noSignature ⟨757⟩)) ∧
      (p.body ⟨758⟩).mapError Fault.kind = (p.body ⟨757⟩).mapError Fault.kind ∧
      ∀ s, Frame.encode s ⟨758⟩ p = Frame.encode s ⟨757⟩ p := by
  intro p
  have hpair : (⟨758⟩, ⟨757⟩) ∈ compatible := by decide
  obtain ⟨-, -, hbody, -, hframe⟩ := compatible_shares_wire hpair
  exact ⟨rfl, rfl, hbody p, fun s => hframe s p⟩

end Version

end MinecraftWire
