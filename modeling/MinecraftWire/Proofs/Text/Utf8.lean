import MinecraftWire.Text.Utf8
import Mathlib.Tactic.SplitIfs

/-! UTF-8 read and written. One character is read from the front of a byte string exactly when its
written form stands there, so a byte string decodes to a text exactly when it is the written form of
the text. -/

namespace MinecraftWire.Utf8

/-! ### First bytes -/

theorem lead_ascii {b : UInt8} (h : b.toNat < 0x80) : lead b = some (b.toNat, []) := by
  rw [lead, if_pos (UInt8.lt_iff_toNat_lt.mpr h)]

theorem lead_two {b : UInt8} (h : 0xC2 ≤ b.toNat) (h' : b.toNat < 0xE0) :
    lead b = some (b.toNat - 0xC0, [continuation]) := by
  simp only [lead, UInt8.lt_iff_toNat_lt, UInt8.reduceToNat]
  rw [if_neg (by omega), if_neg (by omega), if_pos h']

theorem lead_three {b : UInt8} (h : 0xE0 ≤ b.toNat) (h' : b.toNat < 0xF0) :
    lead b = some (b.toNat - 0xE0,
      [if b.toNat = 0xE0 then (0xA0, 0xBF) else if b.toNat = 0xED then (0x80, 0x9F)
        else continuation, continuation]) := by
  simp only [lead, UInt8.lt_iff_toNat_lt, ← UInt8.toNat_inj, UInt8.reduceToNat]
  rw [if_neg (by omega), if_neg (by omega), if_neg (by omega)]
  by_cases h₁ : b.toNat = 0xE0
  · simp [h₁]
  by_cases h₂ : b.toNat = 0xED
  · simp [h₂]
  rw [if_neg h₁, if_neg h₂, if_pos h', if_neg h₁, if_neg h₂]

theorem lead_four {b : UInt8} (h : 0xF0 ≤ b.toNat) (h' : b.toNat ≤ 0xF4) :
    lead b = some (b.toNat - 0xF0,
      [if b.toNat = 0xF0 then (0x90, 0xBF) else if b.toNat = 0xF4 then (0x80, 0x8F)
        else continuation, continuation, continuation]) := by
  simp only [lead, UInt8.lt_iff_toNat_lt, ← UInt8.toNat_inj, UInt8.reduceToNat]
  rw [if_neg (by omega), if_neg (by omega), if_neg (by omega), if_neg (by omega),
    if_neg (by omega), if_neg (by omega)]
  by_cases h₁ : b.toNat = 0xF0
  · simp [h₁]
  by_cases h₂ : b.toNat = 0xF4
  · simp [h₂]
  rw [if_neg h₁, if_pos (by omega), if_neg h₁, if_neg h₂]

theorem lead_none {b : UInt8} (h : 0x80 ≤ b.toNat) (h' : b.toNat < 0xC2 ∨ 0xF4 < b.toNat) :
    lead b = none := by
  simp only [lead, UInt8.lt_iff_toNat_lt, ← UInt8.toNat_inj, UInt8.reduceToNat]
  rw [if_neg (by omega)]
  rcases h' with h' | h'
  · rw [if_pos h']
  · rw [if_neg (by omega), if_neg (by omega), if_neg (by omega), if_neg (by omega),
      if_neg (by omega), if_neg (by omega), if_neg (by omega), if_neg (by omega)]

/-! ### Characters -/

theorem toNat_ofNat {n : Nat} (h : n < 256) : (UInt8.ofNat n).toNat = n := by
  rw [UInt8.toNat_ofNat']
  exact Nat.mod_eq_of_lt h

/-- A written character is read back. -/
theorem head_encodeChar (c : Char) (rest : Bytes) :
    ∃ b bytes, String.utf8EncodeChar c = b :: bytes ∧ head b (bytes ++ rest) = .char c rest := by
  have hc : Char.ofNat c.val.toNat = c := Char.ofNat_toNat c
  have hvalid : c.val.toNat < 0xD800 ∨ 0xDFFF < c.val.toNat ∧ c.val.toNat < 0x110000 := c.valid
  generalize hv : c.val.toNat = v at hc hvalid
  unfold String.utf8EncodeChar
  simp only [hv]
  by_cases h₁ : v ≤ 0x7f
  · refine ⟨_, _, if_pos h₁, ?_⟩
    have hb := toNat_ofNat (n := v) (by omega)
    simp [head, lead_ascii (b := UInt8.ofNat v) (by omega), tails, hb, hc]
  rw [if_neg h₁]
  by_cases h₂ : v ≤ 0x7ff
  · refine ⟨_, _, if_pos h₂, ?_⟩
    have hb₀ := toNat_ofNat (n := v / 64 % 32 + 0xC0) (by omega)
    have hb₁ := toNat_ofNat (n := v % 64 + 0x80) (by omega)
    rw [head, lead_two (by omega) (by omega)]
    simp only [tails, continuation, List.cons_append, UInt8.le_iff_toNat_le, UInt8.reduceToNat]
    rw [if_pos (by omega), hb₀, hb₁, show 64 * (v / 64 % 32 + 0xC0 - 0xC0) +
      (v % 64 + 0x80 - 0x80) = v by omega, hc]
    rfl
  rw [if_neg h₂]
  by_cases h₃ : v ≤ 0xffff
  · refine ⟨_, _, if_pos h₃, ?_⟩
    have hb₀ := toNat_ofNat (n := v / 4096 % 16 + 0xE0) (by omega)
    have hb₁ := toNat_ofNat (n := v / 64 % 64 + 0x80) (by omega)
    have hb₂ := toNat_ofNat (n := v % 64 + 0x80) (by omega)
    rw [head, lead_three (by omega) (by omega)]
    simp only [tails, continuation, List.cons_append, UInt8.le_iff_toNat_le, UInt8.reduceToNat]
    rw [if_pos (by split_ifs <;> simp only [UInt8.reduceToNat] <;> omega), if_pos (by omega), hb₀,
      hb₁, hb₂, show 64 * (64 * (v / 4096 % 16 + 0xE0 - 0xE0) + (v / 64 % 64 + 0x80 - 0x80)) +
      (v % 64 + 0x80 - 0x80) = v by omega, hc]
    rfl
  rw [if_neg h₃]
  refine ⟨_, _, rfl, ?_⟩
  have hb₀ := toNat_ofNat (n := v / 262144 % 8 + 0xF0) (by omega)
  have hb₁ := toNat_ofNat (n := v / 4096 % 64 + 0x80) (by omega)
  have hb₂ := toNat_ofNat (n := v / 64 % 64 + 0x80) (by omega)
  have hb₃ := toNat_ofNat (n := v % 64 + 0x80) (by omega)
  rw [head, lead_four (by omega) (by omega)]
  simp only [tails, continuation, List.cons_append, UInt8.le_iff_toNat_le, UInt8.reduceToNat]
  rw [if_pos (by split_ifs <;> simp only [UInt8.reduceToNat] <;> omega), if_pos (by omega),
    if_pos (by omega), hb₀, hb₁, hb₂, hb₃,
    show 64 * (64 * (64 * (v / 262144 % 8 + 0xF0 - 0xF0) + (v / 4096 % 64 + 0x80 - 0x80)) +
      (v / 64 % 64 + 0x80 - 0x80)) + (v % 64 + 0x80 - 0x80) = v by omega, hc]
  rfl

/-- A code point that is no surrogate is the character's own number. -/
theorem val_ofNat {n : Nat} (h : n < 0xD800 ∨ 0xDFFF < n ∧ n < 0x110000) :
    (Char.ofNat n).val.toNat = n := by
  have hvalid : n.isValidChar := h
  rw [Char.ofNat, dif_pos hvalid]
  rfl

theorem eq_ofNat {b : UInt8} {n : Nat} (h : n = b.toNat) : UInt8.ofNat n = b := by
  rw [h, UInt8.ofNat_toNat]

/-- The bytes after the first one of a character that is read. -/
theorem exists_of_tails {code seen : Nat} {bound : Bounds} {bounds : List Bounds}
    {bytes rest : Bytes} {c : Char} (h : tails code seen (bound :: bounds) bytes = .char c rest) :
    ∃ b bytes', bytes = b :: bytes' ∧ bound.1.toNat ≤ b.toNat ∧ b.toNat ≤ bound.2.toNat ∧
      tails (64 * code + (b.toNat - 0x80)) (seen + 1) bounds bytes' = .char c rest := by
  rcases bytes with _ | ⟨b, bytes'⟩
  · simp [tails] at h
  · simp only [tails] at h
    split at h
    · rename_i hb
      exact ⟨b, bytes', rfl, UInt8.le_iff_toNat_le.mp hb.1, UInt8.le_iff_toNat_le.mp hb.2, h⟩
    · simp at h

theorem char_of_tails_nil {code seen : Nat} {bytes rest : Bytes} {c : Char}
    (h : tails code seen [] bytes = .char c rest) : c = Char.ofNat code ∧ bytes = rest := by
  simp only [tails, Head.char.injEq] at h
  exact ⟨h.1.symm, h.2⟩

/-- What is read as a character is its written form. -/
theorem eq_encodeChar_of_head {b : UInt8} {bytes rest : Bytes} {c : Char}
    (h : head b bytes = .char c rest) : b :: bytes = String.utf8EncodeChar c ++ rest := by
  have hb := b.toNat_lt
  unfold head at h
  by_cases h₁ : b.toNat < 0x80
  · rw [lead_ascii h₁] at h
    obtain ⟨hc, hrest⟩ := char_of_tails_nil h
    rw [hc, hrest, String.utf8EncodeChar, val_ofNat (by omega)]
    rw [if_pos (by omega), UInt8.ofNat_toNat]
    rfl
  by_cases h₂ : b.toNat < 0xC2 ∨ 0xF4 < b.toNat
  · rw [lead_none (by omega) h₂] at h
    simp at h
  by_cases h₃ : b.toNat < 0xE0
  · rw [lead_two (by omega) h₃] at h
    obtain ⟨b₁, bytes₁, hbytes, hl₁, hh₁, h⟩ := exists_of_tails h
    obtain ⟨hc, hrest⟩ := char_of_tails_nil h
    simp only [continuation, UInt8.reduceToNat] at hl₁ hh₁
    rw [hc, hbytes, hrest, String.utf8EncodeChar, val_ofNat (by omega)]
    rw [if_neg (by omega), if_pos (by omega), eq_ofNat (b := b) (by omega),
      eq_ofNat (b := b₁) (by omega)]
    rfl
  by_cases h₄ : b.toNat < 0xF0
  · rw [lead_three (by omega) h₄] at h
    obtain ⟨b₁, bytes₁, hbytes, hl₁, hh₁, h⟩ := exists_of_tails h
    obtain ⟨b₂, bytes₂, hbytes₂, hl₂, hh₂, h⟩ := exists_of_tails h
    obtain ⟨hc, hrest⟩ := char_of_tails_nil h
    have hrange : 0x80 ≤ b₁.toNat ∧ b₁.toNat ≤ 0xBF ∧ (b.toNat = 0xE0 → 0xA0 ≤ b₁.toNat) ∧
        (b.toNat = 0xED → b₁.toNat ≤ 0x9F) := by
      split_ifs at hl₁ hh₁ <;> simp only [continuation, UInt8.reduceToNat] at hl₁ hh₁ <;> omega
    simp only [continuation, UInt8.reduceToNat] at hl₂ hh₂
    rw [hc, hbytes, hbytes₂, hrest, String.utf8EncodeChar, val_ofNat (by omega)]
    rw [if_neg (by omega), if_neg (by omega), if_pos (by omega), eq_ofNat (b := b) (by omega),
      eq_ofNat (b := b₁) (by omega), eq_ofNat (b := b₂) (by omega)]
    rfl
  rw [lead_four (by omega) (by omega)] at h
  obtain ⟨b₁, bytes₁, hbytes, hl₁, hh₁, h⟩ := exists_of_tails h
  obtain ⟨b₂, bytes₂, hbytes₂, hl₂, hh₂, h⟩ := exists_of_tails h
  obtain ⟨b₃, bytes₃, hbytes₃, hl₃, hh₃, h⟩ := exists_of_tails h
  obtain ⟨hc, hrest⟩ := char_of_tails_nil h
  have hrange : 0x80 ≤ b₁.toNat ∧ b₁.toNat ≤ 0xBF ∧ (b.toNat = 0xF0 → 0x90 ≤ b₁.toNat) ∧
      (b.toNat = 0xF4 → b₁.toNat ≤ 0x8F) := by
    split_ifs at hl₁ hh₁ <;> simp only [continuation, UInt8.reduceToNat] at hl₁ hh₁ <;> omega
  simp only [continuation, UInt8.reduceToNat] at hl₂ hh₂ hl₃ hh₃
  rw [hc, hbytes, hbytes₂, hbytes₃, hrest, String.utf8EncodeChar, val_ofNat (by omega)]
  rw [if_neg (by omega), if_neg (by omega), if_neg (by omega), eq_ofNat (b := b) (by omega),
    eq_ofNat (b := b₁) (by omega), eq_ofNat (b := b₂) (by omega), eq_ofNat (b := b₃) (by omega)]
  rfl

/-! ### Texts -/

theorem length_encode (s : String) : (encode s).length = s.utf8ByteSize := by
  rw [encode, ← List.size_toByteArray]
  exact congrArg ByteArray.size String.utf8Encode_toList

/-- No character takes more than four bytes. -/
theorem utf8ByteSize_le (s : String) : s.utf8ByteSize ≤ 4 * s.length := by
  rw [← length_encode, encode, ← String.length_toList]
  induction s.toList with
  | nil => exact Nat.zero_le _
  | cons c cs ih =>
    have hc := c.utf8Size_le_four
    rw [List.flatMap_cons, List.length_append, String.length_utf8EncodeChar, List.length_cons]
    omega

theorem decodeFrom_cons {b : UInt8} {bytes rest : Bytes} {c : Char} {index : Nat} {acc : List Char}
    (h : head b bytes = .char c rest) :
    decodeFrom index acc (b :: bytes) = decodeFrom (index + c.utf8Size) (c :: acc) rest := by
  rw [decodeFrom]
  split <;> rename_i hh <;> rw [h] at hh
  · simp at hh
  · simp at hh
  · obtain ⟨rfl, rfl⟩ := Head.char.inj hh
    rfl

theorem decodeFrom_encode (cs : List Char) (index : Nat) (acc : List Char) :
    decodeFrom index acc (cs.flatMap String.utf8EncodeChar) = .ok (acc.reverse ++ cs) := by
  induction cs generalizing index acc with
  | nil => simp [decodeFrom]
  | cons c cs ih =>
    obtain ⟨b, bytes, hc, hhead⟩ := head_encodeChar c (cs.flatMap String.utf8EncodeChar)
    rw [List.flatMap_cons, hc, List.cons_append, decodeFrom_cons hhead, ih]
    simp

theorem encode_of_decodeFrom {bytes : Bytes} {index : Nat} {acc cs : List Char}
    (h : decodeFrom index acc bytes = .ok cs) :
    ∃ cs', cs = acc.reverse ++ cs' ∧ bytes = cs'.flatMap String.utf8EncodeChar := by
  fun_induction decodeFrom index acc bytes with
  | case1 index acc => exact ⟨[], by simpa using h.symm, rfl⟩
  | case2 => simp at h
  | case3 => simp at h
  | case4 index acc b bytes c rest hhead _ ih =>
    obtain ⟨cs', hcs, hrest⟩ := ih h
    refine ⟨c :: cs', by simpa using hcs, ?_⟩
    rw [eq_encodeChar_of_head hhead, hrest, List.flatMap_cons]

/-- A byte string decodes to the text whose written form it is, and to no other. -/
theorem decode_eq_ok_iff {bytes : Bytes} {s : String} : decode bytes = .ok s ↔ bytes = encode s := by
  constructor
  · intro h
    rw [decode] at h
    rcases hd : decodeFrom 0 [] bytes with fault | cs
    · simp [hd, Except.map] at h
    · obtain ⟨cs', hcs, hbytes⟩ := encode_of_decodeFrom hd
      simp only [hd, Except.map, Except.ok.injEq] at h
      rw [← h, hbytes, hcs, encode, String.toList_ofList]
      rfl
  · rintro rfl
    rw [decode, encode, decodeFrom_encode]
    simp [Except.map]

theorem decode_encode (s : String) : decode (encode s) = .ok s :=
  decode_eq_ok_iff.mpr rfl

theorem toByteArray_encode (s : String) : (encode s).toByteArray = s.toByteArray :=
  String.utf8Encode_toList

/-- The standard library decodes the same byte strings to the same texts. -/
theorem fromUTF8?_eq_some_iff {bytes : Bytes} {s : String} :
    String.fromUTF8? bytes.toByteArray = some s ↔ decode bytes = .ok s := by
  rw [decode_eq_ok_iff, String.fromUTF8?]
  constructor
  · intro h
    split at h
    · obtain rfl := Option.some.inj h
      apply List.toByteArray_inj.mp
      rw [toByteArray_encode]
      rfl
    · contradiction
  · rintro rfl
    rw [toByteArray_encode, dif_pos s.isValidUTF8]
    rfl

end MinecraftWire.Utf8
