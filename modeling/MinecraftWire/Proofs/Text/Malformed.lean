import MinecraftWire.Proofs.Text.Utf8

/-! What is no UTF-8. A first byte announces how many bytes go on with its character, and the bits
of all of them make a number. Something is wrong with a sequence if it has no first byte, if it is
cut off, if its number would do with fewer bytes, is a surrogate, or is above U+10FFFF. A byte
string is no text exactly if such a sequence stands in it behind a text. -/

namespace MinecraftWire.Utf8

/-! ### Sequences -/

/-- A byte that goes on with a character. -/
def Continues (b : UInt8) : Prop :=
  0x80 ≤ b.toNat ∧ b.toNat < 0xC0

instance (b : UInt8) : Decidable (Continues b) :=
  inferInstanceAs (Decidable (_ ∧ _))

/-- How many bytes a first byte announces; `none` for a byte that is never the first. -/
def announced (b : UInt8) : Option Nat :=
  if b.toNat < 0x80 then some 0
  else if b.toNat < 0xC0 then none
  else if b.toNat < 0xE0 then some 1
  else if b.toNat < 0xF0 then some 2
  else if b.toNat < 0xF8 then some 3
  else none

/-- A first byte and as many bytes as it announces. -/
structure Sequence (first : UInt8) (more : Bytes) : Prop where
  announced_eq : announced first = some more.length
  continues : ∀ b ∈ more, Continues b

/-- The number in the bits of a sequence. -/
def number (first : UInt8) (more : Bytes) : Nat :=
  more.foldl (fun n b => 64 * n + b.toNat % 64)
    (if more = [] then first.toNat else first.toNat % 2 ^ (6 - more.length))

/-- The least number that needs so many bytes behind the first. -/
def least : Nat → Nat
  | 0 => 0
  | 1 => 0x80
  | 2 => 0x800
  | _ => 0x10000

/-- What begins no character. -/
inductive Malformed : Bytes → Prop
  /-- A byte that is never the first of a character. -/
  | stray {b : UInt8} (hb : announced b = none) (rest : Bytes) : Malformed (b :: rest)
  /-- Fewer bytes than the first one announces, and then the end or a byte that goes on with
  nothing. -/
  | cutOff {b : UInt8} {n : Nat} {more rest : Bytes} (hb : announced b = some n)
    (hlength : more.length < n) (hmore : ∀ c ∈ more, Continues c)
    (hrest : ∀ c, rest.head? = some c → ¬ Continues c) : Malformed (b :: more ++ rest)
  | overlong {b : UInt8} {more : Bytes} (h : Sequence b more)
    (hlow : number b more < least more.length) (rest : Bytes) : Malformed (b :: more ++ rest)
  | surrogate {b : UInt8} {more : Bytes} (h : Sequence b more) (hlow : 0xD800 ≤ number b more)
    (hhigh : number b more ≤ 0xDFFF) (rest : Bytes) : Malformed (b :: more ++ rest)
  | beyond {b : UInt8} {more : Bytes} (h : Sequence b more) (hhigh : 0x10FFFF < number b more)
    (rest : Bytes) : Malformed (b :: more ++ rest)

/-! ### Characters -/

theorem announced_eq_some_iff {b : UInt8} {n : Nat} :
    announced b = some n ↔ n = 0 ∧ b.toNat < 0x80 ∨ n = 1 ∧ 0xC0 ≤ b.toNat ∧ b.toNat < 0xE0 ∨
      n = 2 ∧ 0xE0 ≤ b.toNat ∧ b.toNat < 0xF0 ∨ n = 3 ∧ 0xF0 ≤ b.toNat ∧ b.toNat < 0xF8 := by
  unfold announced
  split_ifs <;> simp only [Option.some.injEq, false_iff] <;> omega

/-- A number that a sequence may have if `n` bytes follow its first. -/
def Fits (n k : Nat) : Prop :=
  least n ≤ k ∧ (k < 0xD800 ∨ 0xDFFF < k ∧ k < 0x110000)

/-- A written character is a sequence with its number. -/
theorem exists_sequence (c : Char) :
    ∃ b more, String.utf8EncodeChar c = b :: more ∧ Sequence b more ∧ number b more = c.val.toNat ∧
      Fits more.length c.val.toNat := by
  have hvalid : c.val.toNat < 0xD800 ∨ 0xDFFF < c.val.toNat ∧ c.val.toNat < 0x110000 := c.valid
  generalize hv : c.val.toNat = v at hvalid
  unfold String.utf8EncodeChar
  simp only [hv]
  by_cases h₁ : v ≤ 0x7f
  · have hb := toNat_ofNat (n := v) (by omega)
    refine ⟨_, _, if_pos h₁, ⟨announced_eq_some_iff.mpr ?_, by simp⟩, hb, Nat.zero_le v, hvalid⟩
    exact .inl ⟨rfl, by omega⟩
  rw [if_neg h₁]
  by_cases h₂ : v ≤ 0x7ff
  · have hb₀ := toNat_ofNat (n := v / 64 % 32 + 0xC0) (by omega)
    have hb₁ := toNat_ofNat (n := v % 64 + 0x80) (by omega)
    refine ⟨_, _, if_pos h₂, ⟨announced_eq_some_iff.mpr ?_, ?_⟩, ?_, show 0x80 ≤ v by omega, hvalid⟩
    · exact .inr (.inl ⟨rfl, by omega, by omega⟩)
    · simp only [List.forall_mem_cons, Continues, hb₁]
      exact ⟨by omega, by simp⟩
    · change 64 * (_ % 32) + _ % 64 = v
      rw [hb₀, hb₁]
      omega
  rw [if_neg h₂]
  by_cases h₃ : v ≤ 0xffff
  · have hb₀ := toNat_ofNat (n := v / 4096 % 16 + 0xE0) (by omega)
    have hb₁ := toNat_ofNat (n := v / 64 % 64 + 0x80) (by omega)
    have hb₂ := toNat_ofNat (n := v % 64 + 0x80) (by omega)
    refine ⟨_, _, if_pos h₃, ⟨announced_eq_some_iff.mpr ?_, ?_⟩, ?_, show 0x800 ≤ v by omega,
      hvalid⟩
    · exact .inr (.inr (.inl ⟨rfl, by omega, by omega⟩))
    · simp only [List.forall_mem_cons, Continues, hb₁, hb₂]
      exact ⟨by omega, by omega, by simp⟩
    · change 64 * (64 * (_ % 16) + _ % 64) + _ % 64 = v
      rw [hb₀, hb₁, hb₂]
      omega
  rw [if_neg h₃]
  have hb₀ := toNat_ofNat (n := v / 262144 % 8 + 0xF0) (by omega)
  have hb₁ := toNat_ofNat (n := v / 4096 % 64 + 0x80) (by omega)
  have hb₂ := toNat_ofNat (n := v / 64 % 64 + 0x80) (by omega)
  have hb₃ := toNat_ofNat (n := v % 64 + 0x80) (by omega)
  refine ⟨_, _, rfl, ⟨announced_eq_some_iff.mpr ?_, ?_⟩, ?_, show 0x10000 ≤ v by omega, hvalid⟩
  · exact .inr (.inr (.inr ⟨rfl, by omega, by omega⟩))
  · simp only [List.forall_mem_cons, Continues, hb₁, hb₂, hb₃]
    exact ⟨by omega, by omega, by omega, by simp⟩
  · change 64 * (64 * (64 * (_ % 8) + _ % 64) + _ % 64) + _ % 64 = v
    rw [hb₀, hb₁, hb₂, hb₃]
    omega

/-- A sequence whose number may stand in its length is the written form of a character. -/
theorem eq_encodeChar {b : UInt8} {more : Bytes} (h : Sequence b more)
    (hfits : Fits more.length (number b more)) :
    b :: more = String.utf8EncodeChar (Char.ofNat (number b more)) := by
  obtain ⟨hb, hmore⟩ := h
  obtain ⟨hleast, hvalid⟩ := hfits
  rw [String.utf8EncodeChar, val_ofNat hvalid]
  match more, announced_eq_some_iff.mp hb with
  | [], hb =>
    have hnumber : number b [] = b.toNat := rfl
    rw [List.length_nil] at hb
    rw [hnumber, if_pos (by omega), UInt8.ofNat_toNat]
  | [b₁], hb =>
    have hnumber : number b [b₁] = 64 * (b.toNat % 32) + b₁.toNat % 64 := rfl
    have hleast : 0x80 ≤ number b [b₁] := hleast
    simp only [List.forall_mem_cons, Continues] at hmore
    rw [List.length_singleton] at hb
    rw [if_neg (by omega), if_pos (by omega), eq_ofNat (b := b) (by omega),
      eq_ofNat (b := b₁) (by omega)]
  | [b₁, b₂], hb =>
    have hnumber : number b [b₁, b₂] =
        64 * (64 * (b.toNat % 16) + b₁.toNat % 64) + b₂.toNat % 64 := rfl
    have hleast : 0x800 ≤ number b [b₁, b₂] := hleast
    simp only [List.forall_mem_cons, Continues] at hmore
    simp only [List.length_cons, List.length_nil] at hb
    rw [if_neg (by omega), if_neg (by omega), if_pos (by omega), eq_ofNat (b := b) (by omega),
      eq_ofNat (b := b₁) (by omega), eq_ofNat (b := b₂) (by omega)]
  | [b₁, b₂, b₃], hb =>
    have hnumber : number b [b₁, b₂, b₃] =
        64 * (64 * (64 * (b.toNat % 8) + b₁.toNat % 64) + b₂.toNat % 64) + b₃.toNat % 64 := rfl
    have hleast : 0x10000 ≤ number b [b₁, b₂, b₃] := hleast
    simp only [List.forall_mem_cons, Continues] at hmore
    simp only [List.length_cons, List.length_nil] at hb
    rw [if_neg (by omega), if_neg (by omega), if_neg (by omega), eq_ofNat (b := b) (by omega),
      eq_ofNat (b := b₁) (by omega), eq_ofNat (b := b₂) (by omega), eq_ofNat (b := b₃) (by omega)]
  | _ :: _ :: _ :: _ :: _, hb =>
    simp only [List.length_cons] at hb
    omega

theorem not_malformed_encodeChar (c : Char) (rest : Bytes) :
    ¬ Malformed (String.utf8EncodeChar c ++ rest) := by
  obtain ⟨b, more, hc, hsequence, hnumber, hleast, hvalid⟩ := exists_sequence c
  rw [hc]
  intro h
  generalize hbytes : b :: more ++ rest = bytes at h
  -- a sequence that begins where the character does has the same bytes
  have hsame : ∀ {b' : UInt8} {more' rest' : Bytes}, Sequence b' more' →
      b :: (more ++ rest) = b' :: (more' ++ rest') → b' = b ∧ more' = more := by
    intro b' more' rest' hsequence' heq
    obtain ⟨rfl, htail⟩ := List.cons_eq_cons.mp heq
    have hlength := hsequence.announced_eq.symm.trans hsequence'.announced_eq
    exact ⟨rfl, (List.append_inj_left htail (Option.some.inj hlength)).symm⟩
  cases h with
  | stray hb rest' =>
    obtain ⟨rfl, -⟩ := List.cons_eq_cons.mp hbytes
    rw [hsequence.announced_eq] at hb
    contradiction
  | @cutOff b' n more' rest' hb hlength hmore hrest =>
    obtain ⟨rfl, htail⟩ : b = b' ∧ more ++ rest = more' ++ rest' := List.cons_eq_cons.mp hbytes
    rw [hsequence.announced_eq] at hb
    obtain rfl := Option.some.inj hb
    -- where the sequence ends too early, the character goes on
    rcases List.append_eq_append_iff.mp htail with ⟨extra, rfl, -⟩ | ⟨_ | ⟨d, extra⟩, rfl, rfl⟩
    · rw [List.length_append] at hlength
      omega
    · simp at hlength
    · exact hrest d rfl (hsequence.continues d (by simp))
  | overlong h' hlow rest' =>
    obtain ⟨rfl, rfl⟩ := hsame h' hbytes
    omega
  | surrogate h' hlow hhigh rest' =>
    obtain ⟨rfl, rfl⟩ := hsame h' hbytes
    omega
  | beyond h' hhigh rest' =>
    obtain ⟨rfl, rfl⟩ := hsame h' hbytes
    omega

/-- If not all announced bytes go on with the character, those that do are too few. -/
theorem malformed_of_cutOff {b : UInt8} {n : Nat} {bytes : Bytes} (hb : announced b = some n)
    (h : ¬ (n ≤ bytes.length ∧ ∀ c ∈ bytes.take n, Continues c)) : Malformed (b :: bytes) := by
  have hsplit := List.takeWhile_append_dropWhile (p := fun c => decide (Continues c)) (l := bytes)
  have hmore : ∀ c ∈ bytes.takeWhile (fun c => decide (Continues c)), Continues c :=
    fun c hc => of_decide_eq_true (List.all_eq_true.mp List.all_takeWhile c hc)
  have hrest := List.head?_dropWhile_not (fun c => decide (Continues c)) bytes
  generalize bytes.takeWhile (fun c => decide (Continues c)) = more at hsplit hmore
  generalize bytes.dropWhile (fun c => decide (Continues c)) = rest at hsplit hrest
  subst hsplit
  refine .cutOff hb ?_ hmore fun c hc => ?_
  · refine Nat.lt_of_not_le fun hlength => h ⟨?_, fun c hc => hmore c ?_⟩
    · rw [List.length_append]
      omega
    rw [List.take_append_of_le_length (by omega)] at hc
    exact List.mem_of_mem_take hc
  · rw [hc] at hrest
    exact of_decide_eq_false hrest

/-- Every byte string but the empty one begins with a character, or is malformed. -/
theorem malformed_or_exists_char (b : UInt8) (bytes : Bytes) :
    Malformed (b :: bytes) ∨ ∃ c rest, b :: bytes = String.utf8EncodeChar c ++ rest := by
  rcases hb : announced b with _ | n
  · exact .inl (.stray hb bytes)
  by_cases hrun : n ≤ bytes.length ∧ ∀ c ∈ bytes.take n, Continues c
  · have hsequence : Sequence b (bytes.take n) :=
      ⟨by rw [hb, List.length_take, Nat.min_eq_left hrun.1], hrun.2⟩
    rw [← List.take_append_drop n bytes, ← List.cons_append]
    by_cases hlow : number b (bytes.take n) < least (bytes.take n).length
    · exact .inl (.overlong hsequence hlow _)
    by_cases hhigh : 0x10FFFF < number b (bytes.take n)
    · exact .inl (.beyond hsequence hhigh _)
    by_cases hsurrogate : 0xD800 ≤ number b (bytes.take n) ∧ number b (bytes.take n) ≤ 0xDFFF
    · exact .inl (.surrogate hsequence hsurrogate.1 hsurrogate.2 _)
    · have hfits : Fits (bytes.take n).length (number b (bytes.take n)) := ⟨by omega, by omega⟩
      exact .inr ⟨_, _, by rw [eq_encodeChar hsequence hfits]⟩
  · exact .inl (malformed_of_cutOff hb hrun)

theorem encodeChar_append_inj {c c' : Char} {rest rest' : Bytes}
    (h : String.utf8EncodeChar c ++ rest = String.utf8EncodeChar c' ++ rest') :
    c = c' ∧ rest = rest' := by
  obtain ⟨b, bytes, hc, hhead⟩ := head_encodeChar c rest
  obtain ⟨b', bytes', hc', hhead'⟩ := head_encodeChar c' rest'
  rw [hc, hc'] at h
  obtain ⟨rfl, htail⟩ : b = b' ∧ bytes ++ rest = bytes' ++ rest' := List.cons_eq_cons.mp h
  rw [htail, hhead'] at hhead
  obtain ⟨rfl, rfl⟩ := Head.char.inj hhead
  exact ⟨rfl, rfl⟩

/-! ### Texts -/

theorem encode_ofList (cs : List Char) :
    encode (String.ofList cs) = cs.flatMap String.utf8EncodeChar := by
  rw [encode, String.toList_ofList]

/-- A malformed sequence behind a text is not made good by what stands before it. -/
theorem not_malformed_of_flatMap {front cs : List Char} {tail : Bytes}
    (h : front.flatMap String.utf8EncodeChar ++ tail = cs.flatMap String.utf8EncodeChar) :
    ¬ Malformed tail := by
  induction front generalizing cs with
  | nil =>
    rw [List.flatMap_nil, List.nil_append] at h
    rw [h]
    cases cs with
    | nil => nofun
    | cons c cs => exact not_malformed_encodeChar c _
  | cons d front ih =>
    rw [List.flatMap_cons, List.append_assoc] at h
    cases cs with
    | nil =>
      obtain ⟨b, more, hd, -⟩ := exists_sequence d
      simp [hd] at h
    | cons c cs => exact ih (encodeChar_append_inj h).2

/-- A byte string is the form of a text, or a malformed sequence stands in it behind a text. -/
theorem exists_text_or_malformed (bytes : Bytes) :
    (∃ cs : List Char, bytes = cs.flatMap String.utf8EncodeChar) ∨
      ∃ (front : List Char) (tail : Bytes),
        bytes = front.flatMap String.utf8EncodeChar ++ tail ∧ Malformed tail := by
  induction hn : bytes.length using Nat.strongRecOn generalizing bytes with
  | ind n ih =>
    rcases bytes with _ | ⟨b, bytes⟩
    · exact .inl ⟨[], rfl⟩
    rcases malformed_or_exists_char b bytes with h | ⟨c, rest, hc⟩
    · exact .inr ⟨[], b :: bytes, rfl, h⟩
    have hrest : rest.length < n := by
      rw [← hn, hc, List.length_append, String.length_utf8EncodeChar]
      have := c.utf8Size_pos
      omega
    rcases ih rest.length hrest rest rfl with ⟨cs, rfl⟩ | ⟨front, tail, rfl, htail⟩
    · exact .inl ⟨c :: cs, hc⟩
    · exact .inr ⟨c :: front, tail, by rw [hc, List.flatMap_cons, List.append_assoc], htail⟩

/-- A byte string is no text exactly if a malformed sequence stands in it behind a text. -/
theorem decode_eq_error_iff {bytes : Bytes} :
    (∃ fault, decode bytes = .error fault) ↔
      ∃ front tail, bytes = encode front ++ tail ∧ Malformed tail := by
  constructor
  · rintro ⟨fault, h⟩
    rcases exists_text_or_malformed bytes with ⟨cs, rfl⟩ | ⟨front, tail, rfl, htail⟩
    · rw [← encode_ofList, decode_encode] at h
      contradiction
    · exact ⟨String.ofList front, tail, by rw [encode_ofList], htail⟩
  · rintro ⟨front, tail, rfl, htail⟩
    rcases h : decode (encode front ++ tail) with fault | s
    · exact ⟨fault, rfl⟩
    · exact absurd htail (not_malformed_of_flatMap (decode_eq_ok_iff.mp h))

end MinecraftWire.Utf8
