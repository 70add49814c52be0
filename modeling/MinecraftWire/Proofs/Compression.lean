import MinecraftWire.Compression
import MinecraftWire.Proofs.Zlib.Deflate
import MinecraftWire.Proofs.Zlib.Extension
import MinecraftWire.Proofs.Zlib.Truncation

/-! The compressed envelope keeps what it is given, as long as the declared length is the true one
and within the limit, and refuses every other length. It refuses a stream of which bytes are missing
at the end, be it only bytes of the checksum. Nothing tells whether bytes stand behind the
compressed stream. -/

namespace MinecraftWire.Compression

theorem decompress_compress (level : Nat) {limit : Nat} {data : Bytes} (h : data.length ≤ limit) :
    decompress limit data.length (compress level data) = .ok data := by
  have hinflate := Zlib.inflate_deflate level data []
  rw [List.append_nil] at hinflate
  rw [decompress, if_neg (by omega), compress, hinflate]
  simp

/-- Bytes behind the stream go unnoticed. -/
theorem decompress_append {limit declared : Nat} {data bytes : Bytes}
    (h : decompress limit declared data = .ok bytes) (ext : Bytes) :
    decompress limit declared (data ++ ext) = .ok bytes := by
  unfold decompress at h ⊢
  split at h
  · simp at h
  rename_i hlimit
  rw [if_neg hlimit]
  split at h
  · split at h <;> simp at h
  rename_i output rest hinflate
  rw [Zlib.inflate_append hinflate ext]
  exact h

/-! ### Declared lengths -/

section CutOff

variable {level limit : Nat} {data part : Bytes}

/-- A complete part of a stream would leave the rest of the stream behind it, but a stream goes on
to its end. -/
theorem inflate_of_cutOff (hpart : part <+: compress level data)
    (hne : part ≠ compress level data) :
    ∃ halt, Zlib.inflate part = .error halt ∧ Zlib.released part halt ≤ data.length := by
  obtain ⟨ext, hext⟩ := hpart
  have hwhole := Zlib.inflate_deflate level data []
  rw [List.append_nil, ← compress, ← hext] at hwhole
  rcases hinflate : Zlib.inflate part with halt | ⟨output, rest⟩
  · exact ⟨halt, rfl, Zlib.released_le hwhole hinflate⟩
  · rw [Zlib.inflate_append hinflate ext] at hwhole
    obtain ⟨-, hrest⟩ := Prod.mk.inj (Except.ok.inj hwhole)
    obtain ⟨-, rfl⟩ := List.append_eq_nil_iff.mp hrest
    exact absurd (by rw [← hext, List.append_nil]) hne

/-- A stream that is cut off anywhere is refused as broken: nothing of it is taken for the data,
even if the data have come out in full. -/
theorem decompress_of_cutOff (hlimit : data.length ≤ limit) (hpart : part <+: compress level data)
    (hne : part ≠ compress level data) :
    decompress limit data.length part = .error (.format .corruptDeflate) := by
  obtain ⟨halt, hinflate, hreleased⟩ := inflate_of_cutOff hpart hne
  rw [decompress, if_neg (by omega), hinflate]
  exact if_neg (by omega)

/-- A stored block and all of its checksum but the last byte. -/
theorem decompress_of_cutOff_checksum :
    let part : Bytes := [0x78, 0x01, 1, 3, 0, 252, 255, 1, 2, 3, 0, 13, 0]
    [(1 : UInt8), 2, 3].length ≤ 9 ∧ part <+: compress 0 [1, 2, 3] ∧ part ≠ compress 0 [1, 2, 3] ∧
      decompress 9 3 part = .error (.format .corruptDeflate) := by
  intro part
  have hlimit : [(1 : UInt8), 2, 3].length ≤ 9 := by decide
  have hpart : part <+: compress 0 [1, 2, 3] := by decide +kernel
  have hne : part ≠ compress 0 [1, 2, 3] := by decide +kernel
  exact ⟨hlimit, hpart, hne, decompress_of_cutOff hlimit hpart hne⟩

end CutOff

/-! ### Thresholds -/

theorem compress?_eq_none_iff {threshold : Int32} {level : Nat} {data : Bytes} :
    compress? threshold level data = none ↔
      threshold < 0 ∨ (data.length : Int) ≤ threshold.toInt := by
  have hsign : threshold < 0 ↔ threshold.toInt < 0 := Int32.lt_iff_toInt_lt
  have hsign' : 0 ≤ threshold ↔ 0 ≤ threshold.toInt := Int32.le_iff_toInt_le
  simp only [compress?, applies, ite_eq_right_iff, reduceCtorEq, imp_false, Bool.and_eq_true,
    decide_eq_true_eq, hsign, hsign']
  omega

theorem compress?_eq_some {threshold : Int32} {level : Nat} {data z : Bytes}
    (h : compress? threshold level data = some z) : z = compress level data := by
  unfold compress? at h
  split at h
  · exact (Option.some.inj h).symm
  · contradiction

end MinecraftWire.Compression
