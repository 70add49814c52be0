import MinecraftWire.Proofs.Zlib.Token

/-! Bytes as tokens. Whatever matches the search comes up with, the tokens expand to the bytes they
were made from: a match is a stretch that stands before, and every step goes on where the last one
ended. -/

namespace MinecraftWire.Zlib

variable {data : Array UInt8} {i : Nat}

/-! ### Expansion -/

theorem take_push (hi : i < data.size) : (data.take i).push data[i] = data.take (i + 1) := by
  apply Array.toList_inj.mp
  simp

theorem commonLength_le (data : Array UInt8) (j i limit : Nat) :
    commonLength data j i limit ≤ limit ∧ commonLength data j i limit ≤ data.size - i := by
  induction limit generalizing j i with
  | zero => simp [commonLength]
  | succ limit ih =>
    have := ih (j + 1) (i + 1)
    rw [commonLength]
    split
    · split <;> omega
    · omega

/-- A stretch that two places have in common is what repeating the earlier one gives. -/
theorem repeatBack_take {distance limit length : Nat} (hpos : 0 < distance) (hdistance : distance ≤ i)
    (hlength : length ≤ commonLength data (i - distance) i limit) :
    Token.repeatBack distance length (data.take i) = data.take (i + length) := by
  induction limit generalizing i length with
  | zero =>
    obtain rfl : length = 0 := by simpa [commonLength] using hlength
    rfl
  | succ limit ih =>
    cases length with
    | zero => rfl
    | succ length =>
      rw [commonLength] at hlength
      split at hlength
      · rename_i hi
        split at hlength
        · rename_i hsame
          have hsize : (data.take i).size = i := by
            simp [Nat.min_eq_left (Nat.le_of_lt hi.2)]
          have hbyte : (data.take i).getD (i - distance) 0 = data[i] := by
            rw [← hsame]
            simp [Array.getD, show i - distance < min i data.size by omega]
          rw [Token.repeatBack, hsize, if_pos hdistance, hbyte, take_push hi.2]
          rw [ih (by omega) (by rw [Nat.sub_add_comm hdistance]; omega)]
          congr 1
          omega
        · omega
      · omega

namespace Match

theorem expand_token (m : Match data i) : m.token.expand (data.take i) = data.take (i + m.length) :=
  repeatBack_take m.distance_pos m.distance_le m.length_le

theorem valid_token (m : Match data i) : m.token.Valid :=
  ⟨m.minCopy_le, Nat.le_trans m.length_le (commonLength_le _ _ _ _).1, m.distance_pos,
    m.distance_le_windowSize⟩

end Match

/-! ### Parses -/

/-- The tokens in `acc`, the last one first, stand for the bytes before `i`. -/
structure Spells (data : Array UInt8) (i : Nat) (acc : List Token) : Prop where
  expand_eq : acc.reverse.foldl Token.expand #[] = data.take i
  valid : ∀ t ∈ acc, t.Valid

namespace Spells

theorem nil : Spells data 0 [] :=
  ⟨by simp, by simp⟩

variable {acc : List Token}

theorem literal (h : Spells data i acc) (hi : i < data.size) :
    Spells data (i + 1) (.literal (data.getD i 0) :: acc) := by
  constructor
  · rw [List.reverse_cons, List.foldl_append, h.expand_eq]
    simp [Token.expand, Array.getD, hi]
  · intro t ht
    rcases List.mem_cons.mp ht with rfl | ht
    · trivial
    · exact h.valid t ht

theorem copy (h : Spells data i acc) (m : Match data i) :
    Spells data (i + m.length) (m.token :: acc) := by
  constructor
  · rw [List.reverse_cons, List.foldl_append, h.expand_eq]
    exact m.expand_token
  · intro t ht
    rcases List.mem_cons.mp ht with rfl | ht
    · exact m.valid_token
    · exact h.valid t ht

/-- Before the place of a match there is a byte. -/
theorem literal_before (h : Spells data (i - 1) acc) (m : Match data i) (hi : i < data.size) :
    Spells data i (.literal (data.getD (i - 1) 0) :: acc) := by
  have hpos : 0 < i := Nat.lt_of_lt_of_le m.distance_pos m.distance_le
  have hlit := h.literal (Nat.lt_of_le_of_lt (Nat.sub_le i 1) hi)
  rwa [Nat.sub_add_cancel hpos] at hlit

end Spells

/-- Tokens that stand for all of the data. -/
structure Parse (data : Array UInt8) (tokens : List Token) : Prop where
  expand_eq : tokens.foldl Token.expand #[] = data
  valid : ∀ t ∈ tokens, t.Valid

theorem Spells.parse {acc : List Token} (h : Spells data i acc) (hi : ¬ i < data.size) :
    Parse data acc.reverse := by
  constructor
  · rw [h.expand_eq]
    simp [Nat.le_of_not_lt hi]
  · intro t ht
    exact h.valid t (List.mem_reverse.mp ht)

namespace Effort

/-- While a match waits there is no token for the byte before `i` yet. -/
theorem parse_tokensFrom (e : Effort) (links : Array Nat) (waiting : Option (Match data (i - 1)))
    (acc : List Token) (h : Spells data (if waiting.isSome then i - 1 else i) acc) :
    Parse data (e.tokensFrom data links i waiting acc) := by
  fun_induction e.tokensFrom data links i waiting acc with
  | case1 i acc hi hnone ih => exact ih (h.literal hi)
  | case2 i acc hi m hm hlength hwait ih => exact ih h
  | case3 i acc hi m hm hlength hwait ih => exact ih (h.copy m)
  | case4 i acc hi => exact h.parse hi
  | case5 i acc w hi hnone hlength ih => exact ih (h.copy w)
  | case6 i acc w hi m hm hlength acc' hwait ih => exact ih (h.literal_before m hi)
  | case7 i acc w hi m hm hlength acc' hwait ih => exact ih ((h.literal_before m hi).copy m)
  | case8 i acc w hi =>
    have hlength : 3 ≤ w.length := w.minCopy_le
    exact Spells.parse (h.copy w) (by simp only [Option.isSome_some, if_true]; omega)

theorem parse_tokens (e : Effort) (data : Array UInt8) : Parse data (e.tokens data) :=
  parse_tokensFrom e (chains data) none [] Spells.nil

end Effort

namespace Quick

theorem parse_tokensFrom (latest : Array Nat) (acc : List Token) (h : Spells data i acc) :
    Parse data (tokensFrom data latest i acc) := by
  fun_induction tokensFrom data latest i acc with
  | case1 latest i acc hi m hm ih => exact ih (h.copy m)
  | case2 latest i acc hi hnone ih => exact ih (h.literal hi)
  | case3 latest i acc hi => exact h.parse hi

theorem parse_tokens (data : Array UInt8) : Parse data (tokens data) :=
  parse_tokensFrom _ [] Spells.nil

end Quick

end MinecraftWire.Zlib
