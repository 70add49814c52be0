import MinecraftWire.Proofs.Frame
import MinecraftWire.Proofs.VarInt.Form
import MinecraftWire.Proofs.Version

/-! How frames are laid out. A packet has a frame exactly if its version is not older than all
supported ones, has the packet and can write it, and if the two limits are kept: one on the payload
where there is a compressed envelope, one on what follows the frame's length. Everything about the
frame is told by its payload and the settings. -/

namespace MinecraftWire.Frame

open VarInt (Announces Shortest announces_ofLength shortest_ofLength)

/-! ### Parts of a frame -/

/-- The id and body of a packet in the version whose layouts `v` uses. -/
inductive IsPayload (v : Version) (p : Packet) : Bytes → Prop
  | intro {w : Version} {id : Int32} {body : Bytes} (hv : v.Effective w)
    (hid : p.kind.id? w = some id) (hbody : p.body w = .ok body) :
    IsPayload v p (VarInt.encode id ++ body)

/-- A payload as it stands behind a frame's length. -/
inductive IsBody (s : FrameSettings) (payload : Bytes) : Bytes → Prop
  | plain (hs : s.threshold.toInt < 0) : IsBody s payload payload
  | marked {zero : Bytes} (hs : 0 ≤ s.threshold.toInt)
    (hlength : (payload.length : Int) ≤ s.threshold.toInt) (hzero : Shortest zero 0) :
    IsBody s payload (zero ++ payload)
  /-- The stream inflates to the payload, and nothing stands behind it. -/
  | compressed {length z : Bytes} (hs : 0 ≤ s.threshold.toInt)
    (hlength : s.threshold.toInt < payload.length) (hshort : Shortest length payload.length)
    (hz : Zlib.inflate z = .ok (payload.toArray, [])) : IsBody s payload (length ++ z)

/-- A payload behind its frame's length. A data length of zero stands only before a payload that is
not compressed. -/
structure IsFrame (s : FrameSettings) (payload frame : Bytes) : Prop where
  parts : ∃ length body, frame = length ++ body ∧ Shortest length body.length ∧ 1 ≤ body.length ∧
    IsBody s payload body ∧
    (0 ≤ s.threshold.toInt → ∀ zero rest, Announces zero 0 → body = zero ++ rest → rest = payload)

/-- The payload keeps the limit on data, where there is one. -/
def FitsData (s : FrameSettings) (payload : Bytes) : Prop :=
  0 ≤ s.threshold.toInt → payload.length ≤ s.maxDataLength

/-- What is written behind a frame's length. -/
def layout (s : FrameSettings) (payload : Bytes) : Bytes :=
  if s.threshold.toInt < 0 then payload
  else if payload.length ≤ s.threshold.toInt then VarInt.encode 0 ++ payload
  else VarInt.ofLength payload.length ++ Compression.compress s.level payload

variable {s : FrameSettings} {v : Version} {p : Packet} {payload other frame body : Bytes}

/-! ### Payloads -/

theorem IsPayload.ne_nil (h : IsPayload v p payload) : payload ≠ [] := by
  cases h
  simp [VarInt.encode_ne_nil]

theorem IsPayload.unique (h : IsPayload v p payload) (h' : IsPayload v p other) :
    payload = other := by
  obtain ⟨hv, hid, hbody⟩ := h
  obtain ⟨hv', hid', hbody'⟩ := h'
  obtain rfl := hv.unique hv'
  rw [Option.some.inj (hid.symm.trans hid'), Except.ok.inj (hbody.symm.trans hbody')]

theorem isPayload_iff : IsPayload v p payload ↔ ∃ resolution, v.resolve = .ok resolution ∧
    Frame.payload resolution.effective p = .ok payload := by
  constructor
  · rintro ⟨hv, hid, hbody⟩
    obtain ⟨resolution, hresolve, rfl⟩ := Version.exists_resolve_iff.mpr hv
    refine ⟨resolution, hresolve, ?_⟩
    simp [Frame.payload, Packet.id, hid, hbody, bind, Except.bind, pure, Except.pure]
  · rintro ⟨resolution, hresolve, hpayload⟩
    obtain ⟨id, body, hid, hbody, rfl⟩ := payload_eq_ok hpayload
    exact ⟨Version.exists_resolve_iff.mp ⟨resolution, hresolve, rfl⟩, hid, hbody⟩

/-! ### Bodies -/

theorem compressionEnabled_eq_true_iff :
    s.compressionEnabled = true ↔ 0 ≤ s.threshold.toInt := by
  rw [FrameSettings.compressionEnabled, decide_eq_true_iff, Int32.le_iff_toInt_le]
  rfl

theorem envelope_eq_ok_iff {name : String} :
    envelope s name payload = .ok body ↔ FitsData s payload ∧ body = layout s payload := by
  unfold envelope
  by_cases hs : 0 ≤ s.threshold.toInt
  · rw [if_pos (compressionEnabled_eq_true_iff.mpr hs), FitsData, layout,
      if_neg (Int.not_lt.mpr hs)]
    by_cases hdata : s.maxDataLength < payload.length
    · rw [if_pos hdata]
      exact iff_of_false nofun fun h => absurd (h.1 hs) (by omega)
    rw [if_neg hdata, and_iff_right fun _ => by omega]
    rcases hz : Compression.compress? s.threshold s.level payload with _ | z
    · have hlength : (payload.length : Int) ≤ s.threshold.toInt := by
        have := Compression.compress?_eq_none_iff.mp hz
        rw [Int32.lt_iff_toInt_lt] at this
        exact this.resolve_left (Int.not_lt.mpr hs)
      rw [if_pos hlength, Except.ok.injEq, eq_comm]
    · have hlength : ¬ (payload.length : Int) ≤ s.threshold.toInt := fun hlength => by
        rw [Compression.compress?_eq_none_iff.mpr (.inr hlength)] at hz
        contradiction
      rw [if_neg hlength, Compression.compress?_eq_some hz, Except.ok.injEq, eq_comm]
  · rw [if_neg (compressionEnabled_eq_true_iff.not.mpr hs), FitsData, layout,
      if_pos (Int.not_le.mp hs), Except.ok.injEq, and_iff_right fun h => absurd h hs, eq_comm]

theorem isBody_layout (hdata : s.maxDataLength < 2 ^ 31) (hfits : FitsData s payload) :
    IsBody s payload (layout s payload) := by
  unfold layout
  split
  · rename_i hs
    exact .plain hs
  rename_i hs
  have hs : 0 ≤ s.threshold.toInt := by omega
  split
  · rename_i hlength
    exact .marked hs hlength (shortest_ofLength (by decide))
  · rename_i hlength
    have hsize := hfits hs
    have hz := Zlib.inflate_deflate s.level payload []
    rw [List.append_nil] at hz
    exact .compressed hs (by omega) (shortest_ofLength (by omega)) hz

theorem IsBody.ne_nil (h : IsBody s payload body) (hne : payload ≠ []) : body ≠ [] := by
  cases h with
  | plain => exact hne
  | marked hs hlength hzero => simp [hzero.announces.ne_nil]
  | compressed hs hlength hshort hz => simp [hshort.announces.ne_nil]

/-- What stands behind a data length of zero is the payload. -/
theorem IsBody.eq_payload {zero rest : Bytes} (h : IsBody s payload body)
    (hs : 0 ≤ s.threshold.toInt) (hzero : Announces zero 0) (hbody : body = zero ++ rest) :
    rest = payload := by
  cases h with
  | plain hs' => omega
  | marked hs' hlength hzero' => exact (hzero'.announces.append_inj hzero hbody).2.2.symm
  | compressed hs' hlength hshort hz =>
    have := (hshort.announces.append_inj hzero hbody).2.1
    omega

/-! ### Frames -/

theorem encode_eq_ok_iff : encode s v p = .ok frame ↔ ∃ payload, IsPayload v p payload ∧
    FitsData s payload ∧ (layout s payload).length ≤ s.maxFrameLength ∧
    frame = VarInt.ofLength (layout s payload).length ++ layout s payload := by
  constructor
  · intro h
    obtain ⟨resolution, payload, body, hresolve, hpayload, hbody, hlength, rfl⟩ := encode_eq_ok h
    obtain ⟨hfits, rfl⟩ := envelope_eq_ok_iff.mp hbody
    exact ⟨payload, isPayload_iff.mpr ⟨resolution, hresolve, hpayload⟩, hfits, hlength, rfl⟩
  · rintro ⟨payload, hpayload, hfits, hlength, rfl⟩
    obtain ⟨resolution, hresolve, hpayload⟩ := isPayload_iff.mp hpayload
    have hbody : envelope s p.kind.name payload = .ok (layout s payload) :=
      envelope_eq_ok_iff.mpr ⟨hfits, rfl⟩
    simp only [encode, hresolve, hpayload, hbody, bind, Except.bind]
    rw [if_neg (by omega)]
    rfl

theorem isFrame_of_encode (hframe : s.maxFrameLength < 2 ^ 31) (hdata : s.maxDataLength < 2 ^ 31)
    (hpayload : IsPayload v p payload) (h : encode s v p = .ok frame) :
    IsFrame s payload frame := by
  obtain ⟨other, hother, hfits, hlength, rfl⟩ := encode_eq_ok_iff.mp h
  obtain rfl := hpayload.unique hother
  have hbody := isBody_layout hdata hfits
  have hpos := List.length_pos_iff.mpr (hbody.ne_nil hpayload.ne_nil)
  exact ⟨_, _, rfl, shortest_ofLength (by omega), hpos, hbody,
    fun hs zero rest hzero => hbody.eq_payload hs hzero⟩

/-- A packet has a frame exactly if its version is none from before the oldest supported one, the
effective version has the packet and can write it, and both limits are kept. The frame is the
shortest form of its length before the payload, which stands there plainly, behind a zero, or
compressed behind its own length. -/
theorem encode_exactly (hframe : s.maxFrameLength < 2 ^ 31) (hdata : s.maxDataLength < 2 ^ 31)
    (v : Version) (p : Packet) :
    ((∃ frame, encode s v p = .ok frame) ↔ Version.oldest.number ≤ v.number ∧
      ∃ payload, IsPayload v p payload ∧ (layout s payload).length ≤ s.maxFrameLength ∧
        FitsData s payload) ∧
    ∀ payload frame, IsPayload v p payload → encode s v p = .ok frame →
      IsFrame s payload frame := by
  refine ⟨⟨?_, ?_⟩, fun payload frame => isFrame_of_encode hframe hdata⟩
  · rintro ⟨frame, h⟩
    obtain ⟨payload, hpayload, hfits, hlength, -⟩ := encode_eq_ok_iff.mp h
    obtain ⟨hv, hid, hbody⟩ := hpayload
    exact ⟨Version.oldest_le_of_effective hv, _, ⟨hv, hid, hbody⟩, hlength, hfits⟩
  · rintro ⟨-, payload, hpayload, hlength, hfits⟩
    exact ⟨_, encode_eq_ok_iff.mpr ⟨payload, hpayload, hfits, hlength, rfl⟩⟩

/-- A payload of nine bytes above the threshold 0, in one stored block. -/
theorem encode_exactly_stored_ping :
    let s : FrameSettings := ⟨0, 0, 100, 100⟩
    let payload : Bytes := [1, 0, 0, 0, 0, 0, 0, 0, 9]
    s.maxFrameLength < 2 ^ 31 ∧ s.maxDataLength < 2 ^ 31 ∧ IsPayload ⟨50⟩ (.ping 9) payload ∧
      (layout s payload).length = 21 ∧
      ∃ frame, encode s ⟨50⟩ (.ping 9) = .ok frame ∧ IsFrame s payload frame := by
  intro s payload
  have hframe : s.maxFrameLength < 2 ^ 31 := by decide
  have hdata : s.maxDataLength < 2 ^ 31 := by decide
  have hpayload : IsPayload ⟨50⟩ (.ping 9) payload :=
    isPayload_iff.mpr ⟨⟨⟨50⟩, ⟨47⟩, .nearest⟩, by decide, by decide +kernel⟩
  have hlength : (layout s payload).length = 21 := by decide +kernel
  obtain ⟨hiff, hlayout⟩ := encode_exactly hframe hdata ⟨50⟩ (.ping 9)
  have hfits : (layout s payload).length ≤ s.maxFrameLength := by
    rw [hlength]
    decide
  obtain ⟨frame, h⟩ := hiff.mpr ⟨by decide, payload, hpayload, hfits, fun _ => by decide⟩
  exact ⟨hframe, hdata, hpayload, hlength, frame, h, hlayout payload frame hpayload h⟩

end MinecraftWire.Frame
