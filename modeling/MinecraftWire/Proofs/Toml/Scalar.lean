import Mathlib.Tactic.IntervalCases
import MinecraftWire.Toml.Statement

/-! Words in TOML are read back. The decimal digits of a number have no needless zero at the front, so
they are no number in another base either, and an integer of 64 bits has a place among those of TOML. -/

namespace MinecraftWire.Toml

/-! ### Digits -/

theorem digit?_of_isDigit {c : Char} (hc : c.isDigit) :
    digit? 10 c = some (c.toNat - '0'.toNat) := by
  obtain ⟨hzero, hnine⟩ : '0' ≤ c ∧ c ≤ '9' := by
    simpa [Char.isDigit, Char.le_def] using hc
  have hlt : c.toNat - '0'.toNat < 10 := by
    have h : c.toNat ≤ '9'.toNat := hnine
    have : '9'.toNat = 57 := rfl
    have : '0'.toNat = 48 := rfl
    omega
  rw [digit?, Hex.value?, if_pos ⟨hzero, hnine⟩, Option.filter_some, decide_eq_true hlt]
  rfl

theorem digits?_of_isDigit {cs : List Char} (hne : cs ≠ []) (hcs : ∀ c ∈ cs, c.isDigit) :
    digits? 10 cs = some (cs.map fun c => c.toNat - '0'.toNat) := by
  induction cs with
  | nil => contradiction
  | cons c cs ih =>
    have hc := digit?_of_isDigit (hcs c List.mem_cons_self)
    rcases cs with _ | ⟨d, cs⟩
    · rw [digits?, hc]
      rfl
    · have hd : d ≠ '_' := by
        rintro rfl
        exact absurd (hcs '_' (by simp)) (by decide)
      rw [digits?, hc, ih (by simp) fun c hc => hcs c (List.mem_cons_of_mem _ hc)]
      · rfl
      · simp
      · simpa using hd

theorem isDigit_of_mem_toDigits {n : Nat} : ∀ c ∈ Nat.toDigits 10 n, c.isDigit :=
  fun _ => Nat.isDigit_of_mem_toDigits (by decide) (by decide)

/-- The digits of a number other than zero begin with another digit. -/
theorem exists_toDigits {n : Nat} (hn : 0 < n) :
    ∃ d cs, 0 < d ∧ d < 10 ∧ Nat.toDigits 10 n = d.digitChar :: cs := by
  induction n using Nat.strongRecOn with
  | ind n ih =>
    rw [Nat.toDigits_eq_if (by decide)]
    split
    · exact ⟨n, [], hn, ‹_›, rfl⟩
    · obtain ⟨d, cs, hd, hlt, h⟩ := ih (n / 10) (by omega) (by omega)
      exact ⟨d, cs ++ [(n % 10).digitChar], hd, hlt, by rw [h]; rfl⟩

theorem wholeDigits?_toDigits (n : Nat) :
    wholeDigits? (Nat.toDigits 10 n) =
      some ((Nat.toDigits 10 n).map fun c => c.toNat - '0'.toNat) := by
  rw [wholeDigits?, digits?_of_isDigit Nat.toDigits_ne_nil isDigit_of_mem_toDigits]
  rcases Nat.eq_zero_or_pos n with rfl | hn
  · rfl
  · obtain ⟨d, cs, hd, hlt, h⟩ := exists_toDigits hn
    rw [h, List.map_cons]
    interval_cases d <;> rfl

theorem ofDigits_toDigits (n : Nat) :
    ofDigits 10 ((Nat.toDigits 10 n).map fun c => c.toNat - '0'.toNat) = n := by
  rw [ofDigits, List.foldl_map, ← Nat.ofDigitChars_eq_foldl, Nat.ofDigitChars_ten_toDigits]

/-! ### Integers -/

/-- Digits behind a sign, if there is one, are decimal unless a zero stands before another. -/
theorem integer?_of_sign {cs : List Char} {negative : Bool} {n : Nat}
    (hbase : ∀ c more, cs ≠ '0' :: c :: more) (hsign : sign cs = (negative, Nat.toDigits 10 n)) :
    integer? cs = (some (if negative then -(n : Int) else n)).filter
      fun i => -2 ^ 63 ≤ i && i < 2 ^ 63 := by
  rw [integer?]
  · simp only [hsign, wholeDigits?_toDigits, Option.map_some, ofDigits_toDigits]
  · exact fun more => hbase 'x' more
  · exact fun more => hbase 'o' more
  · exact fun more => hbase 'b' more

theorem ne_zeros (n : Nat) (c : Char) (more : List Char) : Nat.toDigits 10 n ≠ '0' :: c :: more := by
  rcases Nat.eq_zero_or_pos n with rfl | hn
  · simp
  · obtain ⟨d, cs, hd, hlt, h⟩ := exists_toDigits hn
    rw [h]
    interval_cases d <;> simp

theorem sign_toDigits (n : Nat) : sign (Nat.toDigits 10 n) = (false, Nat.toDigits 10 n) := by
  rcases h : Nat.toDigits 10 n with _ | ⟨c, cs⟩
  · rfl
  have hc := isDigit_of_mem_toDigits c (h ▸ List.mem_cons_self)
  rw [sign]
  · rintro rest ⟨⟩
    contradiction
  · rintro rest ⟨⟩
    contradiction

theorem toList_toString (i : Int) : (toString i).toList =
    if 0 ≤ i then Nat.toDigits 10 i.toNat else '-' :: Nat.toDigits 10 (-i).toNat := by
  rw [Int.toString_eq_repr, Int.repr_eq_if]
  split <;> simp [Nat.repr_eq_ofList_toDigits]

theorem integer?_toString {i : Int} (hlower : -2 ^ 63 ≤ i) (hupper : i < 2 ^ 63) :
    integer? (toString i).toList = some i := by
  have hread : integer? (toString i).toList =
      (some i).filter fun i => -2 ^ 63 ≤ i && i < 2 ^ 63 := by
    rw [toList_toString]
    split
    · rename_i hi
      rw [integer?_of_sign (ne_zeros _) (sign_toDigits _), if_neg Bool.false_ne_true,
        Int.toNat_of_nonneg hi]
    · rename_i hi
      have hsign : sign ('-' :: Nat.toDigits 10 (-i).toNat) = (true, Nat.toDigits 10 (-i).toNat) :=
        rfl
      rw [integer?_of_sign (by simp) hsign, if_pos rfl, Int.toNat_of_nonneg (by omega), Int.neg_neg]
  rw [hread, Option.filter_some, decide_eq_true hlower, decide_eq_true hupper]
  rfl

/-! ### Words -/

theorem isWordChar_of_mem_toString {i : Int} {c : Char} (hc : c ∈ (toString i).toList) :
    isWordChar c ∧ c ≠ 't' ∧ c ≠ 'f' := by
  have hcases : c = '-' ∨ c.isDigit := by
    rw [toList_toString] at hc
    split at hc
    · exact .inr (isDigit_of_mem_toDigits c hc)
    · exact (List.mem_cons.mp hc).imp_right (isDigit_of_mem_toDigits c)
  rcases hcases with rfl | hc
  · decide
  · refine ⟨by simp [isWordChar, Char.isAlphanum, hc], ?_, ?_⟩ <;> rintro rfl <;> contradiction

theorem ofWord?_toString {i : Int} (hlower : -2 ^ 63 ≤ i) (hupper : i < 2 ^ 63) :
    ofWord? (toString i).toList = some (.integer i) := by
  have hhead : ∀ c cs, (c = 't' ∨ c = 'f') → (toString i).toList ≠ c :: cs := by
    intro c cs hc h
    obtain ⟨-, ht, hf⟩ := isWordChar_of_mem_toString (i := i) (h ▸ List.mem_cons_self)
    exact hc.elim ht hf
  rw [ofWord?, if_neg (hhead _ _ (.inl rfl)), if_neg (hhead _ _ (.inr rfl)),
    integer?_toString hlower hupper]

theorem ofWord?_boolean (b : Bool) : ofWord? (toString b).toList = some (.boolean b) := by
  cases b <;> rfl

/-- A word ends with its line. -/
theorem scalar?_word {w : List Char} {v : Value} (hw : ∀ c ∈ w, isWordChar c)
    (hv : ofWord? w = some v) (rest : List Char) :
    scalar? (w ++ '\n' :: rest) = some (v, '\n' :: rest) := by
  have hword : word (w ++ '\n' :: rest) = (w, '\n' :: rest) := by
    rw [word, List.takeWhile_append_of_pos hw, List.dropWhile_append_of_pos hw,
      List.takeWhile_cons_of_neg (by decide), List.append_nil, List.dropWhile_cons_of_neg (by decide)]
  rw [scalar?, hword]
  change (ofWord? w).map _ = _
  rw [hv]
  rfl

end MinecraftWire.Toml
