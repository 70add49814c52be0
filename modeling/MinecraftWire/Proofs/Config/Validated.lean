import MinecraftWire.Config.Basic
import MinecraftWire.Proofs.Frame.Layout
import MinecraftWire.Proofs.Packet.Refusal
import MinecraftWire.Proofs.Registry.History
import MinecraftWire.Proofs.Text.Utf8

/-! What a configuration without problems is good for. Frames are written with lengths cast to 32
bits and under settings that are taken as they are; it is the validation of the version, the limits
and the threshold together that makes each length in a frame the one that it stands for. -/

namespace MinecraftWire

/-! ### Validation -/

namespace Config

/-- The bounds of the settings. -/
structure Valid (c : Config) : Prop where
  version : ∃ resolution, c.protocol.version.resolve? = some resolution ∧
    resolution.fallback ≠ .nearest
  frameLength_pos : 1 ≤ c.protocol.maxFrameLength
  frameLength_le : c.protocol.maxFrameLength ≤ FrameSettings.defaultMaxFrameLength
  level_le : c.compression.level ≤ maxLevel
  dataLength_pos : 1 ≤ c.compression.maxDataLength
  dataLength_le : c.compression.maxDataLength ≤ FrameSettings.defaultMaxDataLength
  threshold_le : c.compression.threshold.toInt ≤ c.compression.maxDataLength
  name_ne : c.logging.applicationName ≠ ""
  nameBytes_le : c.logging.applicationName.utf8ByteSize ≤ maxNameBytes

theorem bounds_eq_nil_iff {n most : Nat} {zero large : Problem} :
    (if n = 0 then [zero] else if most < n then [large] else []) = [] ↔ 1 ≤ n ∧ n ≤ most := by
  split_ifs <;> simp <;> omega

theorem Protocol.problems_eq_nil_iff (p : Protocol) : p.problems = [] ↔
    (∃ resolution, p.version.resolve? = some resolution ∧ resolution.fallback ≠ .nearest) ∧
      1 ≤ p.maxFrameLength ∧ p.maxFrameLength ≤ FrameSettings.defaultMaxFrameLength := by
  rw [problems, List.append_eq_nil_iff, bounds_eq_nil_iff]
  refine and_congr_left fun _ => ?_
  rcases p.version.resolve? with _ | resolution
  · simp
  · by_cases hnearest : resolution.fallback = .nearest <;> simp [hnearest]

theorem Compression.enabled_eq_true_iff (c : Compression) :
    c.enabled = true ↔ 0 ≤ c.threshold.toInt := by
  rw [enabled, decide_eq_true_iff, Int32.le_iff_toInt_le]
  rfl

theorem Compression.problems_eq_nil_iff (c : Compression) : c.problems = [] ↔
    c.level ≤ maxLevel ∧
      (1 ≤ c.maxDataLength ∧ c.maxDataLength ≤ FrameSettings.defaultMaxDataLength) ∧
        c.threshold.toInt ≤ c.maxDataLength := by
  rw [problems, List.append_eq_nil_iff, List.append_eq_nil_iff, bounds_eq_nil_iff, and_assoc]
  simp only [ite_eq_right_iff, List.cons_ne_nil, imp_false, Nat.not_lt, not_and,
    c.enabled_eq_true_iff]
  refine and_congr_right fun _ => and_congr_right fun _ => ?_
  omega

theorem Logging.problems_eq_nil_iff (l : Logging) : l.problems = [] ↔
    l.applicationName ≠ "" ∧ l.applicationName.utf8ByteSize ≤ maxNameBytes := by
  rw [problems, ne_eq, ← String.isEmpty_iff]
  split_ifs with hempty hlong
  · simp [hempty]
  · simp [Nat.not_le.mpr hlong]
  · simp [hempty, Nat.le_of_not_lt hlong]

/-- Validation finds nothing just when every setting keeps its bounds. -/
theorem problems_eq_nil_iff (c : Config) : c.problems = [] ↔ c.Valid := by
  rw [problems, List.append_eq_nil_iff, List.append_eq_nil_iff, Protocol.problems_eq_nil_iff,
    Compression.problems_eq_nil_iff, Logging.problems_eq_nil_iff]
  constructor
  · rintro ⟨⟨⟨hversion, hpos, hle⟩, hlevel, ⟨hdata, hdata'⟩, hthreshold⟩, hname, hbytes⟩
    exact ⟨hversion, hpos, hle, hlevel, hdata, hdata', hthreshold, hname, hbytes⟩
  · intro h
    exact ⟨⟨⟨h.version, h.frameLength_pos, h.frameLength_le⟩, h.level_le,
      ⟨h.dataLength_pos, h.dataLength_le⟩, h.threshold_le⟩, h.name_ne, h.nameBytes_le⟩

end Config

/-! ### Serving a version -/

namespace Registry

/-- A registry answers every request for a version, from the table that its effective version has,
and has no warning to give. -/
structure Serves (r : Registry) (v : Version) : Prop where
  silent : ∀ request : Request, request.version? = some v → (r.perform request).warnings = []
  answers : ∃ resolution table, PacketTable.build resolution.effective = .ok table ∧
    (r.resolution v).outcome = .ok resolution ∧
    (∃ published, (r.table v).outcome = .ok published ∧ published.table = table) ∧
    ∀ state d, (r.resolve v state d).outcome = .ok (table.set state d) ∧
      ∀ id, (r.lookup v state d id).outcome = (table.set state d).lookup id

theorem Reachable.serves {r : Registry} (hr : r.Reachable) {v : Version}
    {resolution : Version.Resolution} (hv : v.resolve? = some resolution)
    (hfallback : resolution.fallback ≠ .nearest) : r.Serves v where
  silent request hrequest := by
    rw [warnings_perform, Request.nearest?, hrequest, Option.bind_some, hv, Option.filter_some,
      if_neg (by simpa using hfallback)]
    rfl
  answers := by
    have hresolve : v.resolve = .ok resolution := by rw [Version.resolve, hv]
    obtain ⟨published, htable, hbuild⟩ := hr.outcome_table hresolve
    refine ⟨resolution, published.table, hbuild, ?_, ⟨published, htable, rfl⟩, fun state d => ?_⟩
    · rw [resolution_of_resolves hv]
    · have hset : (r.resolve v state d).outcome = .ok (published.table.set state d) := by
        rw [Registry.resolve, htable]
        rfl
      refine ⟨hset, fun id => ?_⟩
      rw [Registry.lookup, hset]
      rfl

end Registry

/-! ### Lengths -/

/-- A length that is the same number when it is cast to 32 bits. -/
def Exact (n : Nat) : Prop :=
  (Int32.ofNat n).toInt = n

theorem exact_of_lt {n : Nat} (h : n < 2 ^ 31) : Exact n :=
  Reader.toInt_ofNat h

theorem VarInt.length_ofLength_le {n : Nat} (h : n < 2 ^ 21) : (ofLength n).length ≤ 3 := by
  have hn : (Int32.ofNat n).toUInt32.toNat = n := by
    rw [Int32.toUInt32_ofNat', UInt32.toNat_ofNat', Nat.mod_eq_of_lt (by omega)]
  rw [ofLength, encode, hn]
  exact (length_ofNat_le_iff (by decide)).mpr h

namespace Packet

theorem limit_of_mem_propertyTexts {property : Property} {e : Nat × String}
    (h : e ∈ propertyTexts property) : e.1 = Text.maxCharacters := by
  rcases List.mem_cons.mp h with rfl | h
  · rfl
  rcases List.mem_cons.mp h with rfl | h
  · rfl
  obtain ⟨signature, -, rfl⟩ := List.mem_map.mp h
  rfl

theorem limit_le_of_mem_texts {v : Version} {p : Packet} {e : Nat × String} (h : e ∈ p.texts v) :
    e.1 ≤ Text.maxCharacters := by
  have hone {limit : Nat} {s : String} (hlimit : limit ≤ Text.maxCharacters)
      (h : e ∈ [(limit, s)]) : e.1 ≤ Text.maxCharacters := by
    rw [List.mem_singleton.mp h]
    exact hlimit
  cases p with
  | handshake p => exact hone (by decide) h
  | statusResponse json => exact hone (by decide) h
  | loginStart p => exact hone (by decide) h
  | loginDisconnect reason => exact hone (by decide) h
  | encryptionRequest p => exact hone (by decide) h
  | loginPluginRequest p => exact hone (by decide) h
  | loginSuccess p =>
    rcases List.mem_cons.mp h with rfl | h
    · exact show maxUsername ≤ _ by decide
    split at h
    · obtain ⟨property, -, hmem⟩ := List.mem_flatMap.mp h
      exact Nat.le_of_eq (limit_of_mem_propertyTexts hmem)
    · exact absurd h List.not_mem_nil
  | _ => exact absurd h List.not_mem_nil

/-- No text of a body that is written is longer than its field allows. -/
theorem length_le_of_body {v : Version} {p : Packet} {body : Bytes} (h : p.body v = .ok body)
    {e : Nat × String} (he : e ∈ p.texts v) : e.2.length ≤ e.1 := by
  by_contra hlong
  have hrefused := error_mem_pieces_iff.mpr (Refused.text he (Nat.lt_of_not_le hlong))
  exact Pieces.bytes_eq_ok_exists_iff.mp ⟨body, h⟩ _ hrefused

theorem exact_text_of_body {v : Version} {p : Packet} {body : Bytes} (h : p.body v = .ok body)
    {e : Nat × String} (he : e ∈ p.texts v) : Exact e.2.utf8ByteSize := by
  have hlimit : e.1 ≤ 32767 := limit_le_of_mem_texts he
  have hlength := length_le_of_body h he
  have hsize := Utf8.utf8ByteSize_le e.2
  exact exact_of_lt (by omega)

end Packet

/-! ### Frames -/

namespace Frame

open VarInt (Announces)

/-- The length before a body: in at most three bytes, that of the body, and within its limit. -/
structure IsLength (s : FrameSettings) (length body : Bytes) : Prop where
  announces : Announces length body.length
  length_le : length.length ≤ 3
  pos : 1 ≤ body.length
  le : body.length ≤ s.maxFrameLength
  exact : Exact body.length

/-- The data length `n` before `data`, if it is not zero: that of the payload, to which the data
inflates, above the threshold and within its limit. -/
structure IsDataLength (s : FrameSettings) (payload : Bytes) (n : Int) (data : Bytes) : Prop where
  eq : n = payload.length
  above : s.threshold.toInt < n
  le : n ≤ s.maxDataLength
  exact : Exact payload.length
  inflates : Zlib.inflate data = .ok (payload.toArray, [])

/-- A frame in which every length is the one that it stands for. -/
structure Safe (s : FrameSettings) (v : Version) (p : Packet) (frame : Bytes) : Prop where
  parts : ∃ payload length body, IsPayload v p payload ∧ frame = length ++ body ∧
    IsLength s length body ∧
    (s.threshold.toInt < 0 → body = payload) ∧
    (0 ≤ s.threshold.toInt → ∃ form n data, body = form ++ data ∧ Announces form n ∧
      (n = 0 → data = payload) ∧ (n ≠ 0 → IsDataLength s payload n data))
  texts : ∀ w, v.Effective w → ∀ e ∈ p.texts w, Exact e.2.utf8ByteSize

variable {s : FrameSettings} {v : Version} {p : Packet} {payload frame body : Bytes}

theorem IsBody.dataLength (h : IsBody s payload body) (hs : 0 ≤ s.threshold.toInt)
    (hfits : FitsData s payload) (hdata : s.maxDataLength < 2 ^ 31) :
    ∃ form n data, body = form ++ data ∧ Announces form n ∧ (n = 0 → data = payload) ∧
      (n ≠ 0 → IsDataLength s payload n data) := by
  cases h with
  | plain hneg => omega
  | marked _ _ hzero =>
    exact ⟨_, 0, payload, rfl, hzero.announces, fun _ => rfl, fun h => absurd rfl h⟩
  | @compressed length z _ habove hshort hz =>
    have hle := hfits hs
    -- above a threshold that is not negative no payload is empty, so its mark is not zero
    refine ⟨length, payload.length, z, rfl, hshort.announces, fun hzero => ?_, fun _ => ?_⟩
    · omega
    · exact ⟨rfl, habove, by omega, exact_of_lt (by omega), hz⟩

theorem IsBody.eq_of_neg (h : IsBody s payload body) (hs : s.threshold.toInt < 0) :
    body = payload := by
  cases h with
  | plain => rfl
  | marked hs' => omega
  | compressed hs' => omega

/-- Under limits that three groups of seven bits and 31 bits allow for, every frame is safe. -/
theorem safe_of_encode (hframe : s.maxFrameLength < 2 ^ 21) (hdata : s.maxDataLength < 2 ^ 31)
    (h : encode s v p = .ok frame) : Safe s v p frame := by
  obtain ⟨payload, hpayload, hfits, hle, rfl⟩ := encode_eq_ok_iff.mp h
  have hbody := isBody_layout hdata hfits
  have hpos := List.length_pos_iff.mpr (hbody.ne_nil hpayload.ne_nil)
  have hlength : IsLength s (VarInt.ofLength (layout s payload).length) (layout s payload) :=
    ⟨VarInt.announces_ofLength (by omega), VarInt.length_ofLength_le (by omega), hpos, hle,
      exact_of_lt (by omega)⟩
  refine ⟨⟨payload, _, _, hpayload, rfl, hlength, hbody.eq_of_neg,
    fun hs => hbody.dataLength hs hfits hdata⟩, fun w hw e he => ?_⟩
  cases hpayload with
  | intro hv hid hwritten =>
    obtain rfl := hv.unique hw
    exact Packet.exact_text_of_body hwritten he

end Frame

/-- Under a configuration in which validation finds nothing, every registry serves the version that
is configured, and every frame of a packet is safe under its settings. -/
theorem Config.framing_safe {c : Config} (h : c.problems = []) :
    (∀ r : Registry, r.Reachable → r.Serves c.protocol.version) ∧
      ∀ p frame, Frame.encode c.frameSettings c.protocol.version p = .ok frame →
        Frame.Safe c.frameSettings c.protocol.version p frame := by
  have hvalid := c.problems_eq_nil_iff.mp h
  constructor
  · intro r hr
    obtain ⟨resolution, hv, hfallback⟩ := hvalid.version
    exact hr.serves hv hfallback
  · intro p frame hencode
    have hframe : c.protocol.maxFrameLength ≤ 2097151 := hvalid.frameLength_le
    have hdata : c.compression.maxDataLength ≤ 8388608 := hvalid.dataLength_le
    exact Frame.safe_of_encode (show c.protocol.maxFrameLength < 2 ^ 21 by omega)
      (show c.compression.maxDataLength < 2 ^ 31 by omega) hencode

/-- A ping above the threshold 0 in one stored block, under a version that has the layouts of an
older one. -/
theorem Config.framing_safe_ping :
    let c : Config :=
      { protocol := { version := ⟨758⟩ }, compression := { threshold := 0, level := 0 } }
    let frame : Bytes :=
      [21, 9, 120, 1, 1, 9, 0, 246, 255, 1, 0, 0, 0, 0, 0, 0, 0, 11, 0, 29, 0, 13]
    c.problems = [] ∧ Registry.empty.Serves c.protocol.version ∧
      Frame.encode c.frameSettings c.protocol.version (.ping 11) = .ok frame ∧
      Frame.Safe c.frameSettings c.protocol.version (.ping 11) frame := by
  intro c frame
  have hproblems : c.problems = [] := by decide +kernel
  have hframe : Frame.encode c.frameSettings c.protocol.version (.ping 11) = .ok frame := by
    decide +kernel
  obtain ⟨hserves, hsafe⟩ := framing_safe hproblems
  exact ⟨hproblems, hserves _ .empty, hframe, hsafe _ _ hframe⟩

end MinecraftWire
