import MinecraftWire.Proofs.Frame
import MinecraftWire.Proofs.Packet.Decoded
import MinecraftWire.Proofs.Packet.Locality

/-! Frames that are accepted. Their packet belongs to the packet set and can be written again; and the
frame holds nothing else, as far as its payload goes: what stands behind a compressed payload in its
frame goes unnoticed. -/

namespace MinecraftWire

namespace Frame

variable {s : FrameSettings} {v : Version} {table : PacketTable} {state : ConnectionState}
  {d : Direction} {frame payload : Bytes} {p : Packet}

/-! ### Payloads -/

/-- The id and body in a frame: all of it, or what its envelope holds. -/
def contents (s : FrameSettings) (frame : Bytes) : Except Fault Bytes :=
  if s.compressionEnabled then openEnvelope s frame else .ok frame

theorem decode_eq_contents_bind (s : FrameSettings) (set : PacketSet) (frame : Bytes) :
    decode s set frame = (contents s frame).bind (decodePayload set) := by
  unfold decode contents
  split <;> rfl

theorem decode_eq_ok {set : PacketSet} (h : decode s set frame = .ok p) :
    ∃ payload, contents s frame = .ok payload ∧ decodePayload set payload = .ok p := by
  rw [decode_eq_contents_bind] at h
  rcases hcontents : contents s frame with fault | payload <;> rw [hcontents] at h
  · contradiction
  · exact ⟨payload, rfl, h⟩

/-- What an accepted payload is made of: an id under which the set has the packet's type, and a body
that is the packet's and nothing more. -/
theorem decodePayload_eq_ok (hbuild : PacketTable.build v = .ok table)
    (h : decodePayload (table.set state d) payload = .ok p) :
    ∃ id rest, Reader.varInt.run payload = (.ok id, rest) ∧ p.kind.id? v = some id ∧
      p.kind.state = state ∧ d ∈ p.kind.directions ∧
      (table.set state d).lookup id = .ok (.ofKind p.kind id) ∧
      (p.kind.body v).run rest = (.ok p, []) ∧ p.Normal v := by
  unfold decodePayload at h
  split at h
  · simp at h
  rename_i id rest hid
  split at h
  · simp at h
  rename_i type hlookup
  have hversion : (table.set state d).version = v := PacketTable.version_of_build hbuild
  obtain ⟨kind, hkind, hstate, hd, rfl⟩ := PacketTable.lookup_eq_ok hbuild hlookup
  split at h
  · simp at h
  · rename_i hbody
    obtain rfl := Except.ok.inj h
    rw [hversion] at hbody
    obtain ⟨s', hread, -⟩ := Reader.run_eq_ok hbody
    obtain ⟨rfl, hnormal⟩ := kind.ensures_body v hread
    exact ⟨id, rest, hid, hkind, hstate, hd, hlookup, hbody, hnormal⟩
  · simp at h

/-! ### Packets that are accepted -/

/-- An accepted frame holds a packet of the set's state and direction, under its id in the effective
version. The packet's body can be written in this version, and gives the packet back and nothing
more. -/
theorem decode_sound {r : Registry} {set : PacketSet} (hr : r.Reachable)
    (hset : (r.resolve v state d).outcome = .ok set) (h : decode s set frame = .ok p) :
    ∃ resolution, v.resolve = .ok resolution ∧ p.kind.state = state ∧ d ∈ p.kind.directions ∧
      ∃ payload id rest type form, contents s frame = .ok payload ∧
        Reader.varInt.run payload = (.ok id, rest) ∧ p.id resolution.effective = .ok id ∧
        set.lookup id = .ok type ∧ p.body resolution.effective = .ok form ∧
        (type.body set.version).run form = (.ok p, []) := by
  obtain ⟨resolution, table, hv, hbuild, rfl⟩ := hr.resolve_eq_ok hset
  obtain ⟨payload, hcontents, hpayload⟩ := decode_eq_ok h
  obtain ⟨id, rest, hread, hid, hstate, hd, hlookup, -, hnormal⟩ :=
    decodePayload_eq_ok hbuild hpayload
  obtain ⟨form, hform, hback⟩ := hnormal.read_body
  have hversion : (table.set state d).version = resolution.effective :=
    PacketTable.version_of_build hbuild
  refine ⟨resolution, hv, hstate, hd, payload, id, rest, _, form, hcontents, hread, ?_, hlookup,
    hform, ?_⟩
  · rw [Packet.id, hid]
  · rw [hversion]
    exact hback

/-- A ping whose id takes a byte more than it needs. -/
theorem decode_sound_long_id :
    let frame : Bytes := [129, 0, 0, 0, 0, 0, 0, 0, 0, 9]
    let table : PacketTable := ⟨⟨757⟩, PacketTable.entriesOf (PacketType.declared ⟨757⟩)⟩
    decode .uncompressed (table.set .status .clientbound) frame = .ok (.ping 9) ∧
      ∃ payload id rest type form, contents .uncompressed frame = .ok payload ∧
        Reader.varInt.run payload = (.ok id, rest) ∧ (Packet.ping 9).id ⟨757⟩ = .ok id ∧
        (table.set .status .clientbound).lookup id = .ok type ∧
        (Packet.ping 9).body ⟨757⟩ = .ok form ∧
        (type.body (table.set .status .clientbound).version).run form = (.ok (.ping 9), []) := by
  intro frame table
  have hset : (Registry.empty.resolve ⟨757⟩ .status .clientbound).outcome =
      .ok (table.set .status .clientbound) := rfl
  have h : decode .uncompressed (table.set .status .clientbound) frame = .ok (.ping 9) := by
    decide +kernel
  obtain ⟨resolution, hv, -, -, hsound⟩ := decode_sound .empty hset h
  obtain rfl := Except.ok.inj hv
  exact ⟨h, hsound⟩

/-! ### Bytes behind an accepted frame -/

/-- The frame has the compressed envelope, and a payload that is compressed in it. -/
def Deflated (s : FrameSettings) (frame : Bytes) : Prop :=
  s.compressionEnabled ∧ ∃ length rest, Reader.varInt.run frame = (.ok length, rest) ∧ length ≠ 0

/-- The compressed stream says itself where it ends. -/
theorem contents_append_of_deflated (h : contents s frame = .ok payload) (hdeflated : Deflated s frame)
    (ext : Bytes) : contents s (frame ++ ext) = .ok payload := by
  obtain ⟨henabled, length, rest, hlength, hne⟩ := hdeflated
  rw [contents, if_pos henabled, openEnvelope] at h ⊢
  rw [Reader.local_varInt.run_append hlength ext]
  rw [hlength] at h
  dsimp only at h ⊢
  by_cases hneg : length < 0
  · simp [hneg] at h
  rw [if_neg hneg, if_neg hne] at h ⊢
  exact Compression.decompress_append h ext

/-- Where nothing is compressed the payload goes on to the end of the frame. -/
theorem contents_append_of_not_deflated (h : contents s frame = .ok payload)
    (hdeflated : ¬ Deflated s frame) (ext : Bytes) :
    contents s (frame ++ ext) = .ok (payload ++ ext) := by
  unfold contents at h ⊢
  split at h
  · rename_i henabled
    rw [if_pos henabled]
    unfold openEnvelope at h ⊢
    split at h
    · simp at h
    rename_i length rest hlength
    rw [Reader.local_varInt.run_append hlength ext]
    dsimp only
    obtain rfl : length = 0 := by
      by_contra hne
      exact hdeflated ⟨henabled, length, rest, hlength, hne⟩
    obtain rfl := Except.ok.inj h
    rfl
  · rename_i henabled
    rw [if_neg henabled]
    obtain rfl := Except.ok.inj h
    rfl

theorem decodePayload_append (hbuild : PacketTable.build v = .ok table)
    (h : decodePayload (table.set state d) payload = .ok p) (hp : ¬ p.Absorbs) {ext : Bytes}
    (hext : ext ≠ []) : decodePayload (table.set state d) (payload ++ ext) =
      .error (.format (.leftInFrame p.kind.name ext.length)) := by
  obtain ⟨id, rest, hid, -, -, -, hlookup, hbody, -⟩ := decodePayload_eq_ok hbuild h
  have hversion : (table.set state d).version = v := PacketTable.version_of_build hbuild
  have hid := Reader.local_varInt.run_append hid ext
  have hbody := PacketKind.run_body_append hbody hp ext
  rw [decodePayload, hid]
  simp only [hlookup, PacketType.ofKind, hversion, hbody]
  cases ext with
  | nil => exact absurd rfl hext
  | cons b ext => rfl

/-- Bytes added to an accepted frame: behind a compressed payload they change nothing; behind a payload
that is not compressed they are refused, unless the packet's last field takes them in. -/
theorem decode_with_bytes_behind (hbuild : PacketTable.build v = .ok table)
    (h : decode s (table.set state d) frame = .ok p) (ext : Bytes) :
    (Deflated s frame → decode s (table.set state d) (frame ++ ext) = .ok p) ∧
    (¬ Deflated s frame → ¬ p.Absorbs → ext ≠ [] →
      decode s (table.set state d) (frame ++ ext) =
        .error (.format (.leftInFrame p.kind.name ext.length))) := by
  obtain ⟨payload, hcontents, hpayload⟩ := decode_eq_ok h
  constructor
  · intro hdeflated
    rw [decode_eq_contents_bind, contents_append_of_deflated hcontents hdeflated ext]
    exact hpayload
  · intro hdeflated hp hext
    rw [decode_eq_contents_bind, contents_append_of_not_deflated hcontents hdeflated ext]
    exact decodePayload_append hbuild hpayload hp hext

/-- Both frames of a status request, each with a byte behind it. -/
theorem decode_with_bytes_behind_status_request :
    let deflated : Bytes := [1, 120, 1, 1, 1, 0, 254, 255, 0, 0, 1, 0, 1]
    let set := PacketTable.set .status .serverbound
      ⟨⟨757⟩, PacketTable.entriesOf (PacketType.declared ⟨757⟩)⟩
    decode (.compressed 0) set deflated = .ok .statusRequest ∧
      decode (.compressed 0) set (deflated ++ [7]) = .ok .statusRequest ∧
      decode (.compressed 0) set [0, 0] = .ok .statusRequest ∧
      decode (.compressed 0) set ([0, 0] ++ [7]) =
        .error (.format (.leftInFrame "status_request" 1)) := by
  intro deflated set
  have hbuild := PacketTable.build_eq ⟨757⟩
  have h : decode (.compressed 0) set deflated = .ok .statusRequest := by decide +kernel
  have h' : decode (.compressed 0) set [0, 0] = .ok .statusRequest := by decide +kernel
  have hlength : Reader.varInt.run deflated = (.ok 1, deflated.tail) := by decide +kernel
  have hzero : Reader.varInt.run [0, 0] = (.ok 0, [0]) := by decide +kernel
  have hplain : ¬ Deflated (.compressed 0) [0, 0] := by
    rintro ⟨-, length, rest, hread, hne⟩
    rw [hzero] at hread
    exact hne (Except.ok.inj (Prod.mk.inj hread).1).symm
  exact ⟨h, (decode_with_bytes_behind hbuild h [7]).1 ⟨rfl, 1, _, hlength, by decide⟩, h',
    (decode_with_bytes_behind hbuild h' [7]).2 hplain id (by simp)⟩

/-- Not every byte of an accepted frame is accounted for: one behind a compressed payload goes
unnoticed. -/
theorem decode_accepts_byte_behind_stream :
    ¬ ∀ (v : Version) (table : PacketTable) (state : ConnectionState) (d : Direction)
      (s : FrameSettings) (frame : Bytes) (p : Packet), PacketTable.build v = .ok table →
        decode s (table.set state d) frame = .ok p → Deflated s frame ∨ ¬ p.Absorbs →
        ∀ ext, ext ≠ [] → ∃ fault, decode s (table.set state d) (frame ++ ext) = .error fault := by
  intro hnone
  let frame : Bytes := [1, 120, 1, 1, 1, 0, 254, 255, 0, 0, 1, 0, 1]
  obtain ⟨fault, hrefused⟩ := hnone ⟨757⟩ _ .status .serverbound (.compressed 0) frame .statusRequest
    (PacketTable.build_eq _) (by decide +kernel) (.inr id) [7] (by simp)
  have haccepted : decode (.compressed 0) (PacketTable.set .status .serverbound
      ⟨⟨757⟩, PacketTable.entriesOf (PacketType.declared ⟨757⟩)⟩) (frame ++ [7]) =
      .ok .statusRequest := by
    decide +kernel
  rw [haccepted] at hrefused
  simp at hrefused

end Frame

end MinecraftWire
