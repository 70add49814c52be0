import MinecraftWire.Frame
import MinecraftWire.Proofs.Compression
import MinecraftWire.Proofs.Packet.Body
import MinecraftWire.Proofs.Registry

/-! Frames written and read. -/

namespace MinecraftWire

/-! ### Payloads -/

namespace Frame

theorem payload_eq_ok {v : Version} {p : Packet} {bytes : Bytes} (h : payload v p = .ok bytes) :
    ∃ id body, p.kind.id? v = some id ∧ p.body v = .ok body ∧ bytes = VarInt.encode id ++ body := by
  unfold payload Packet.id at h
  cases hid : p.kind.id? v with
  | none => simp [hid, bind, Except.bind] at h
  | some id =>
    rcases hbody : p.body v with fault | body
    · simp [hid, hbody, bind, Except.bind] at h
    · simp only [hid, hbody, bind, Except.bind, pure, Except.pure, Except.ok.injEq] at h
      exact ⟨id, body, rfl, rfl, h.symm⟩

/-- A set that finds the packet's type under its id reads the payload. -/
theorem decodePayload_payload {v : Version} {p : Packet} {bytes : Bytes} {set : PacketSet}
    (hset : set.version = v)
    (hlookup : ∀ id, p.kind.id? v = some id → set.lookup id = .ok (.ofKind p.kind id))
    (h : payload v p = .ok bytes) : decodePayload set bytes = .ok (p.erase v) := by
  obtain ⟨id, body, hid, hbody, rfl⟩ := payload_eq_ok h
  have hrun := (p.reads_body v [] (fun _ => rfl) body hbody).run_all
  rw [decodePayload, (Reader.takes_varInt id body).run]
  simp only [hlookup id hid, PacketType.ofKind, hset, hrun]

/-! ### Envelopes -/

end Frame

/-- Settings under which a frame written with `s` can be read: the same limits, and an envelope or
none as in `s`. -/
structure FrameSettings.Agrees (s t : FrameSettings) : Prop where
  maxFrameLength : t.maxFrameLength = s.maxFrameLength
  maxDataLength : t.maxDataLength = s.maxDataLength
  compressionEnabled : t.compressionEnabled = s.compressionEnabled

namespace Frame

variable {s t : FrameSettings}

theorem decode_envelope {name : String} {payload body : Bytes} (set : PacketSet)
    (hdata : s.maxDataLength < 2 ^ 31) (hagree : s.Agrees t) (hne : payload ≠ [])
    (h : envelope s name payload = .ok body) :
    body ≠ [] ∧ decode t set body = decodePayload set payload := by
  unfold envelope at h
  unfold decode
  rw [hagree.compressionEnabled]
  cases hs : s.compressionEnabled
  · simp only [hs, Bool.false_eq_true, if_false, Except.ok.injEq] at h ⊢
    subst h
    exact ⟨hne, rfl⟩
  simp only [hs, if_true] at h ⊢
  split at h
  · simp at h
  rename_i hsize
  unfold Compression.compress? at h
  cases happlies : Compression.applies s.threshold payload.length
  · -- zero stands before a payload that is not compressed
    simp only [happlies, Bool.false_eq_true, if_false, Except.ok.injEq] at h
    subst h
    refine ⟨by simp [VarInt.encode_ne_nil], ?_⟩
    simp [openEnvelope, (Reader.takes_varInt 0 payload).run, Except.bind]
  · simp only [happlies, if_true, Except.ok.injEq] at h
    subst h
    refine ⟨by simp [VarInt.ofLength, VarInt.encode_ne_nil], ?_⟩
    obtain ⟨hneg, hnat⟩ := Reader.toInt_ofNat_toNat (n := payload.length) (by omega)
    have hzero : Int32.ofNat payload.length ≠ 0 := by
      intro hzero
      rw [hzero] at hnat
      exact hne (List.length_eq_zero_iff.mp hnat.symm)
    rw [openEnvelope, VarInt.ofLength, (Reader.takes_varInt _ _).run]
    simp only [hneg, hzero, if_false, hnat]
    rw [hagree.maxDataLength, Compression.decompress_compress s.level (by omega)]
    rfl

/-! ### Frames -/

theorem encode_eq_ok {v : Version} {p : Packet} {frame : Bytes} (h : encode s v p = .ok frame) :
    ∃ resolution bytes body, v.resolve = .ok resolution ∧
      payload resolution.effective p = .ok bytes ∧ envelope s p.kind.name bytes = .ok body ∧
      body.length ≤ s.maxFrameLength ∧ frame = VarInt.ofLength body.length ++ body := by
  unfold encode at h
  rcases hv : v.resolve with fault | resolution
  · simp [hv, bind, Except.bind] at h
  rcases hp : payload resolution.effective p with fault | bytes
  · simp [hv, hp, bind, Except.bind] at h
  rcases hb : envelope s p.kind.name bytes with fault | body
  · simp [hv, hp, hb, bind, Except.bind] at h
  simp only [hv, hp, hb, bind, Except.bind, pure, Except.pure] at h
  split at h
  · simp at h
  · exact ⟨resolution, bytes, body, rfl, hp, hb, by omega, (Except.ok.inj h).symm⟩

/-- A body within the limits is read behind its length. -/
theorem takes_frame {body rest : Bytes} {set : PacketSet} {p : Packet}
    (hframe : t.maxFrameLength < 2 ^ 31) (hne : body ≠ []) (hlength : body.length ≤ t.maxFrameLength)
    (h : decode t set body = .ok p) :
    (Reader.packet t set).Takes (VarInt.ofLength body.length ++ body) rest p := by
  have hpos := List.length_pos_iff.mpr hne
  obtain ⟨hneg, hnat⟩ := Reader.toInt_ofNat_toNat (n := body.length) (by omega)
  have hcheck : t.checkFrameLength (Int32.ofNat body.length) = .ok body.length := by
    have hone : ¬ Int32.ofNat body.length < 1 := by
      rw [Int32.lt_iff_toInt_lt, Reader.toInt_ofNat (by omega)]
      simpa using hne
    rw [FrameSettings.checkFrameLength, if_neg hone, hnat, if_neg (by omega)]
  exact (Reader.takes_varInt _ _).bind <|
    Reader.Takes.lift_bind hcheck <|
      (Reader.takes_exactly body rest).bind_nil (Reader.takes_lift h rest)

/-- A frame is read by any packet set the registry has for its version, state and direction, under
settings that agree with those it was written under: the packet comes back without the fields that the
effective version lacks, and what follows the frame is left. -/
theorem takes_encode {v : Version} {p : Packet} {frame : Bytes} {d : Direction} {r : Registry}
    (hframe : s.maxFrameLength < 2 ^ 31) (hdata : s.maxDataLength < 2 ^ 31) (hagree : s.Agrees t)
    (hr : r.Reachable) (hd : d ∈ p.kind.directions) (h : encode s v p = .ok frame) (rest : Bytes) :
    ∃ resolution set, v.resolve = .ok resolution ∧
      (r.resolve v p.kind.state d).outcome = .ok set ∧
      (Reader.packet t set).Takes frame rest (p.erase resolution.effective) := by
  obtain ⟨resolution, payload, body, hv, hpayload, hbody, hlength, rfl⟩ := encode_eq_ok h
  obtain ⟨id, content, hid, -, hcontent⟩ := payload_eq_ok hpayload
  obtain ⟨set, hset, hversion, hlookup⟩ := hr.lookup_resolve hv hid hd
  refine ⟨resolution, set, hv, hset, ?_⟩
  have hread := decodePayload_payload hversion (fun id' hid' => ?_) hpayload
  · obtain ⟨hne, hdecode⟩ := decode_envelope set hdata hagree
      (by simp [hcontent, VarInt.encode_ne_nil]) hbody
    rw [← hdecode] at hread
    have hmax := hagree.maxFrameLength
    exact takes_frame (by omega) hne (by omega) hread
  · rw [hid] at hid'
    rw [← Option.some.inj hid', hlookup]

/-- An old version has no place for the UUID of a login start. -/
theorem takes_encode_login_start :
    let frame : Bytes :=
      [19, 7, 120, 1, 1, 7, 0, 248, 255, 0, 5, 83, 116, 101, 118, 101, 6, 20, 2, 13]
    encode ⟨0, 0, 100, 100⟩ ⟨50⟩ (.loginStart ⟨"Steve", none, some 5⟩) = .ok frame ∧
      ∃ set, (Registry.empty.resolve ⟨50⟩ .login .serverbound).outcome = .ok set ∧
        (Reader.packet ⟨7, 9, 100, 100⟩ set).Takes frame [1] (.loginStart ⟨"Steve", none, none⟩) := by
  intro frame
  have hframe : encode ⟨0, 0, 100, 100⟩ ⟨50⟩ (.loginStart ⟨"Steve", none, some 5⟩) = .ok frame := by
    decide +kernel
  have hagree : FrameSettings.Agrees ⟨0, 0, 100, 100⟩ ⟨7, 9, 100, 100⟩ := ⟨rfl, rfl, rfl⟩
  have hd : Direction.serverbound ∈ PacketKind.loginStart.directions := by decide
  obtain ⟨resolution, set, hv, hset, htakes⟩ :=
    takes_encode (by decide) (by decide) hagree .empty hd hframe [1]
  obtain rfl := Except.ok.inj hv
  exact ⟨hframe, set, hset, htakes⟩

end Frame

end MinecraftWire
