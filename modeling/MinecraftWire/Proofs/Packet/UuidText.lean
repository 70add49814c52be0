import Mathlib.Tactic.IntervalCases
import MinecraftWire.Packet.UuidText

/-! UUIDs as text. The hexadecimal text of a number reads back as the number, also behind zeros, and
the text of a UUID is read as that UUID: hyphens are no digits, so nothing but the digits is left
without them. -/

namespace MinecraftWire

namespace Hex

/-! ### Digits -/

theorem value?_digitChar {d : Nat} (hd : d < 16) : value? d.digitChar = some d := by
  interval_cases d <;> rfl

theorem readFrom_append (acc : Nat) (cs ds : List Char) :
    readFrom acc (cs ++ ds) = (readFrom acc cs).bind fun n => readFrom n ds := by
  induction cs generalizing acc with
  | nil => rfl
  | cons c cs ih =>
    rw [List.cons_append, readFrom, readFrom]
    cases value? c with
    | none => rfl
    | some d => exact ih _

theorem readFrom_toDigits (n : Nat) : readFrom 0 (Nat.toDigits 16 n) = some n := by
  induction n using Nat.strongRecOn with
  | ind n ih =>
    rw [Nat.toDigits_eq_if (by omega)]
    split
    · rename_i hn
      simp [readFrom, value?_digitChar hn]
    · rename_i hn
      rw [readFrom_append, ih (n / 16) (by omega)]
      simp only [Option.bind_some, readFrom, value?_digitChar (Nat.mod_lt n (by omega : 0 < 16))]
      rw [Nat.div_add_mod]

theorem readFrom_zeros (k : Nat) (cs : List Char) :
    readFrom 0 (List.replicate k '0' ++ cs) = readFrom 0 cs := by
  induction k with
  | zero => rfl
  | succ k ih =>
    rw [List.replicate_succ, List.cons_append, readFrom, show value? '0' = some 0 from rfl]
    exact ih

theorem readFrom_padded (width n : Nat) : readFrom 0 (padded width n).toList = some n := by
  rw [padded, String.toList_ofList, readFrom_zeros, readFrom_toDigits]

theorem length_padded {width n : Nat} (hw : 0 < width) (hn : n < 16 ^ width) :
    (padded width n).toList.length = width := by
  have h := (Nat.length_toDigits_le_iff (b := 16) (by omega) hw).mpr hn
  rw [padded, String.toList_ofList, List.length_append, List.length_replicate]
  omega

theorem exists_digit_of_mem_toDigits {n : Nat} {c : Char} (hc : c ∈ Nat.toDigits 16 n) :
    ∃ d < 16, c = d.digitChar := by
  induction n using Nat.strongRecOn with
  | ind n ih =>
    rw [Nat.toDigits_eq_if (by omega)] at hc
    split at hc
    · rename_i hn
      exact ⟨n, hn, List.mem_singleton.mp hc⟩
    · rename_i hn
      rcases List.mem_append.mp hc with hc | hc
      · exact ih (n / 16) (by omega) hc
      · exact ⟨n % 16, Nat.mod_lt _ (by omega), List.mem_singleton.mp hc⟩

theorem exists_digit_of_mem_padded {width n : Nat} {c : Char} (hc : c ∈ (padded width n).toList) :
    ∃ d < 16, c = d.digitChar := by
  rw [padded, String.toList_ofList] at hc
  rcases List.mem_append.mp hc with hc | hc
  · exact ⟨0, by omega, List.eq_of_mem_replicate hc⟩
  · exact exists_digit_of_mem_toDigits hc

end Hex

namespace UuidText

/-! ### The text of a UUID -/

theorem length_digits (u : Uuid) : (digits u).length = 32 :=
  Hex.length_padded (by omega) u.isLt

theorem digit_ne {u : Uuid} {c : Char} (hc : c ∈ digits u) : c ≠ '-' ∧ c ≠ '+' ∧ c.utf8Size = 1 := by
  obtain ⟨d, hd, rfl⟩ := Hex.exists_digit_of_mem_padded hc
  interval_cases d <;> decide

/-- The groups of the digits together are the digits. -/
theorem append_groups (ds : List Char) : ds.take 8 ++ (ds.drop 8).take 4 ++ (ds.drop 12).take 4 ++
    (ds.drop 16).take 4 ++ ds.drop 20 = ds := by
  rw [← List.take_add, ← List.take_add, ← List.take_add, List.take_append_drop]

/-- Without its hyphens the text is the digits. -/
theorem filter_format (u : Uuid) : (format u).toList.filter (· ≠ '-') = digits u := by
  have hfilter : (digits u).filter (· ≠ '-') = digits u :=
    List.filter_eq_self.mpr fun c hc => by simpa using (digit_ne hc).1
  rw [format, String.toList_ofList]
  conv => rhs; rw [← hfilter, ← append_groups (digits u)]
  simp only [List.filter_append, List.filter_cons, List.append_assoc, List.cons_append]
  rfl

theorem hex?_digits (u : Uuid) : hex? (digits u) = some u.toNat := by
  have hread := Hex.readFrom_padded 32 u.toNat
  unfold hex?
  split
  · rename_i cs heq
    exact absurd rfl (digit_ne (u := u) (heq ▸ List.mem_cons_self)).2.1
  · exact hread

theorem parse_format (u : Uuid) : parse (format u) = .ok u := by
  have hsize : ((digits u).map Char.utf8Size).sum = 32 := by
    rw [List.map_congr_left fun c hc => (digit_ne hc).2.2, List.map_const', length_digits]
    rfl
  unfold parse
  rw [filter_format]
  simp only [hsize, hex?_digits]
  simp

end UuidText

end MinecraftWire
