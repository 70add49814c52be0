import Mathlib.Data.List.Basic
import MinecraftWire.Proofs.Packet.UuidText
import MinecraftWire.Toml.Quoted

/-! Strings in TOML are read back. In the two basic styles each escape stands for the character that
it was written for; in the two literal styles there are no escapes, and the style is chosen only for
a text that needs none. Between triple quotes no three quotes stand in a row, except where the string
ends. -/

namespace MinecraftWire

namespace Hex

theorem value?_toUpper_digitChar {d : Nat} (hd : d < 16) : value? d.digitChar.toUpper = some d := by
  interval_cases d <;> decide

/-- Digits may be in upper case. -/
theorem readFrom_map_toUpper (acc : Nat) {cs : List Char}
    (h : ∀ c ∈ cs, ∃ d < 16, c = d.digitChar) :
    readFrom acc (cs.map Char.toUpper) = readFrom acc cs := by
  induction cs generalizing acc with
  | nil => rfl
  | cons c cs ih =>
    obtain ⟨d, hd, rfl⟩ := h c List.mem_cons_self
    rw [List.map_cons, readFrom, readFrom, value?_toUpper_digitChar hd, value?_digitChar hd]
    exact ih _ fun c hc => h c (List.mem_cons_of_mem _ hc)

end Hex

namespace Toml

/-! ### Escapes -/

/-- Whether a text that stands behind a backslash stands for a character there. It is no end of a
line, which would be left out. -/
structure IsEscape (code : List Char) (c : Char) : Prop where
  escape? (tail : List Char) : escape? (code ++ tail) = some (c, tail)
  newline? (tail : List Char) : newline? ((code ++ tail).dropWhile isBlank) = none

theorem isEscape_hex {c : Char} (hc : isControl c) :
    IsEscape ('u' :: (Hex.padded 4 c.toNat).toUpper.toList) c := by
  have hlt : c.toNat < 0x80 := by
    simp only [isControl, Bool.or_eq_true, Bool.and_eq_true, decide_eq_true_eq, beq_iff_eq] at hc
    omega
  have hupper : (Hex.padded 4 c.toNat).toUpper.toList = (Hex.padded 4 c.toNat).toList.map Char.toUpper :=
    String.toList_map
  have hread : Hex.readFrom 0 (Hex.padded 4 c.toNat).toUpper.toList = some c.toNat := by
    rw [hupper, Hex.readFrom_map_toUpper 0 fun _ => Hex.exists_digit_of_mem_padded,
      Hex.readFrom_padded]
  have hlength : (Hex.padded 4 c.toNat).toUpper.toList.length = 4 := by
    rw [hupper, List.length_map, Hex.length_padded (by omega) (by omega)]
  generalize (Hex.padded 4 c.toNat).toUpper.toList = digits at hread hlength
  obtain ⟨w, x, y, z, rfl⟩ := List.length_eq_four.mp hlength
  refine ⟨fun tail => ?_, fun tail => rfl⟩
  simp only [List.cons_append, List.nil_append, escape?, hread, Option.bind_some, codePoint?]
  rw [if_pos (.inl (by omega)), Char.ofNat_toNat]
  rfl

theorem not_lineBreak {c : Char} (h : isControl c = false) : c ≠ '\n' ∧ c ≠ '\r' := by
  constructor <;> rintro rfl <;> contradiction

/-- A character is escaped, or stands for itself where it may. -/
theorem escape_cases (multiline : Bool) (c : Char) :
    (∃ code, escape multiline c = '\\' :: code ∧ IsEscape code c) ∨
    (multiline = true ∧ c = '\n' ∧ escape multiline c = ['\n']) ∨
    (escape multiline c = [c] ∧ c ≠ '\\' ∧ isControl c = false) := by
  unfold escape
  split_ifs with hb ht hn hmultiline hf hr hbackslash hcontrol
  · subst hb
    exact .inl ⟨['b'], rfl, fun _ => rfl, fun _ => rfl⟩
  · subst ht
    exact .inl ⟨['t'], rfl, fun _ => rfl, fun _ => rfl⟩
  · exact .inr (.inl ⟨hmultiline, hn, rfl⟩)
  · subst hn
    exact .inl ⟨['n'], rfl, fun _ => rfl, fun _ => rfl⟩
  · subst hf
    exact .inl ⟨['f'], rfl, fun _ => rfl, fun _ => rfl⟩
  · subst hr
    exact .inl ⟨['r'], rfl, fun _ => rfl, fun _ => rfl⟩
  · subst hbackslash
    exact .inl ⟨['\\'], rfl, fun _ => rfl, fun _ => rfl⟩
  · exact .inl ⟨_, rfl, isEscape_hex hcontrol⟩
  · exact .inr (.inr ⟨rfl, hbackslash, by simpa using hcontrol⟩)

theorem isEscape_quote : IsEscape ['"'] '"' :=
  ⟨fun _ => rfl, fun _ => rfl⟩

/-- Only a quote is written as one. -/
theorem escape_ne_quote (multiline : Bool) {c : Char} (hc : c ≠ '"') (tail more : List Char) :
    escape multiline c ++ tail ≠ '"' :: more := by
  rcases escape_cases multiline c with ⟨code, h, -⟩ | ⟨-, -, h⟩ | ⟨h, -⟩ <;> rw [h]
  · simp
  · simp
  · simpa using fun heq => absurd heq hc

/-! ### On one line -/

section OneLine

variable {code tail : List Char} {c : Char} (done : List Char)

theorem basic?_escape (h : IsEscape code c) :
    basic? done ('\\' :: code ++ tail) = basic? (c :: done) tail := by
  rw [List.cons_append, basic?]
  split
  · rename_i hread
    rw [h.escape?] at hread
    obtain ⟨rfl, rfl⟩ := Prod.mk.inj (Option.some.inj hread)
    rfl
  · rename_i hread
    rw [h.escape?] at hread
    contradiction

theorem basic?_plain (hquote : c ≠ '"') (hbackslash : c ≠ '\\') (hcontrol : isControl c = false) :
    basic? done (c :: tail) = basic? (c :: done) tail := by
  rw [basic?, hcontrol]
  · rfl
  · exact hquote
  · exact hbackslash

theorem basic?_escaped (quotes : Nat) (cs rest : List Char) :
    basic? done (escaped false quotes cs ++ '"' :: rest) =
      some (String.ofList (done.reverse ++ cs), rest) := by
  induction cs generalizing done quotes with
  | nil => rw [escaped, List.nil_append, basic?, List.append_nil]
  | cons c cs ih =>
    have hstep : basic? done (escaped false quotes (c :: cs) ++ '"' :: rest) =
        basic? (c :: done) (escaped false 0 cs ++ '"' :: rest) := by
      by_cases hc : c = '"'
      · subst hc
        exact basic?_escape done isEscape_quote
      rw [escaped, if_neg hc, List.append_assoc]
      rcases escape_cases false c with ⟨code, h, hcode⟩ | ⟨h, -⟩ | ⟨h, hbackslash, hcontrol⟩
      · rw [h, basic?_escape done hcode]
      · contradiction
      · rw [h]
        exact basic?_plain done hc hbackslash hcontrol
    rw [hstep, ih, List.reverse_cons, List.append_assoc]
    rfl

theorem literal?_append {cs : List Char} (h : ∀ c ∈ cs, c ≠ '\'' ∧ isControl c = false)
    (rest : List Char) :
    literal? done (cs ++ '\'' :: rest) = some (String.ofList (done.reverse ++ cs), rest) := by
  induction cs generalizing done with
  | nil => rw [List.nil_append, literal?, List.append_nil]
  | cons c cs ih =>
    obtain ⟨hquote, hcontrol⟩ := h c List.mem_cons_self
    rw [List.cons_append, literal?, hcontrol, if_neg (by decide),
      ih _ fun c hc => h c (List.mem_cons_of_mem _ hc), List.reverse_cons, List.append_assoc]
    · rfl
    · exact hquote

end OneLine

/-! ### Between triple quotes -/

section Multiline

variable {code tail rest : List Char} {c : Char} (done : List Char)

/-- Up to two quotes right before the closing ones belong to the string. -/
theorem multilineBasic?_close {k : Nat} (hk : k ≤ 2) (hrest : ∀ more, rest ≠ '"' :: more) :
    multilineBasic? done (List.replicate k '"' ++ ['"', '"', '"'] ++ rest) =
      some (String.ofList (done.reverse ++ List.replicate k '"'), rest) := by
  interval_cases k
  · simp [multilineBasic?, hrest]
  · simp [multilineBasic?]
  · simp [multilineBasic?]

theorem multilineBasic?_quote (h : ∀ more, tail ≠ '"' :: '"' :: more) :
    multilineBasic? done ('"' :: tail) = multilineBasic? ('"' :: done) tail := by
  rw [multilineBasic?, show isControl '"' = false from rfl]
  · rfl
  · exact fun more _ => h _
  · exact fun more _ => h _
  · exact fun more _ => h _
  all_goals simp

theorem multilineBasic?_escape (h : IsEscape code c) :
    multilineBasic? done ('\\' :: code ++ tail) = multilineBasic? (c :: done) tail := by
  rw [List.cons_append, multilineBasic?]
  split
  · rename_i hline
    rw [h.newline?] at hline
    contradiction
  · split
    · rename_i hread
      rw [h.escape?] at hread
      obtain ⟨rfl, rfl⟩ := Prod.mk.inj (Option.some.inj hread)
      rfl
    · rename_i hread
      rw [h.escape?] at hread
      contradiction

theorem multilineBasic?_plain (hquote : c ≠ '"') (hbackslash : c ≠ '\\')
    (hcontrol : isControl c = false) :
    multilineBasic? done (c :: tail) = multilineBasic? (c :: done) tail := by
  obtain ⟨hnewline, hreturn⟩ := not_lineBreak hcontrol
  rw [multilineBasic?, hcontrol]
  · rfl
  · exact fun _ h => absurd h hquote
  · exact fun _ h => absurd h hquote
  · exact fun _ h => absurd h hquote
  · exact fun _ h => absurd h hreturn
  · exact hnewline
  · exact hbackslash

/-- Behind a quote two more stand only where the string ends. -/
theorem escaped_ne_quotes {quotes : Nat} {cs : List Char} (hcs : cs ≠ [])
    (hlast : ¬ (quotes = 0 ∧ cs = ['"'])) (tail more : List Char) :
    escaped true (quotes + 1) cs ++ tail ≠ '"' :: '"' :: more := by
  rcases cs with _ | ⟨c, cs⟩
  · exact absurd rfl hcs
  by_cases hc : c = '"'
  · subst hc
    by_cases hquotes : quotes = 0
    · subst hquotes
      rcases cs with _ | ⟨d, cs⟩
      · exact absurd ⟨rfl, rfl⟩ hlast
      · by_cases hd : d = '"'
        · subst hd
          simp [escaped]
        · have h := escape_ne_quote true hd (escaped true 0 cs ++ tail) more
          simpa [escaped, hd] using h
    · simp [escaped, show ¬ quotes + 1 < 2 by omega]
  · rw [escaped, if_neg hc, List.append_assoc]
    exact escape_ne_quote true hc _ _

/-- Line breaks are at the front only if the string has one. -/
theorem head_escaped {cs : List Char} (hcs : '\n' ∉ cs) (tail : List Char) :
    ∀ d ∈ (escaped true 0 cs ++ '"' :: tail).head?, d ≠ '\n' ∧ d ≠ '\r' := by
  intro d hd
  rcases cs with _ | ⟨c, cs⟩
  · obtain rfl : '"' = d := by simpa [escaped] using hd
    decide
  by_cases hc : c = '"'
  · obtain rfl : '"' = d := by simpa [escaped, hc] using hd
    decide
  rw [escaped, if_neg hc] at hd
  rcases escape_cases true c with ⟨code, h, -⟩ | ⟨-, rfl, -⟩ | ⟨h, -, hcontrol⟩
  · obtain rfl : '\\' = d := by simpa [h] using hd
    decide
  · exact absurd List.mem_cons_self hcs
  · obtain rfl : c = d := by simpa [h] using hd
    exact not_lineBreak hcontrol

theorem multilineBasic?_escaped (quotes : Nat) (cs : List Char) (hrest : ∀ more, rest ≠ '"' :: more) :
    multilineBasic? done (escaped true quotes cs ++ ['"', '"', '"'] ++ rest) =
      some (String.ofList (done.reverse ++ cs), rest) := by
  induction cs generalizing done quotes with
  | nil =>
    have h := multilineBasic?_close done (Nat.zero_le 2) hrest
    simpa [escaped] using h
  | cons c cs ih =>
    -- a string that ends with quotes is read to its end from the first of these
    by_cases hone : c = '"' ∧ cs = [] ∧ quotes < 2
    · obtain ⟨rfl, rfl, hquotes⟩ := hone
      have h := multilineBasic?_close done (k := 1) (by decide) hrest
      simpa [escaped, hquotes] using h
    by_cases htwo : c = '"' ∧ cs = ['"'] ∧ quotes = 0
    · obtain ⟨rfl, rfl, rfl⟩ := htwo
      have h := multilineBasic?_close done (k := 2) (by decide) hrest
      simpa [escaped] using h
    have hstep : ∃ quotes', multilineBasic? done
        (escaped true quotes (c :: cs) ++ ['"', '"', '"'] ++ rest) =
        multilineBasic? (c :: done) (escaped true quotes' cs ++ ['"', '"', '"'] ++ rest) := by
      by_cases hc : c = '"'
      · subst hc
        by_cases hquotes : quotes < 2
        · refine ⟨quotes + 1, ?_⟩
          rw [escaped, if_pos rfl, if_pos ⟨rfl, hquotes⟩, List.cons_append, List.cons_append]
          refine multilineBasic?_quote done fun more => ?_
          rw [List.append_assoc]
          exact escaped_ne_quotes (fun h => hone ⟨rfl, h, hquotes⟩)
            (fun h => htwo ⟨rfl, h.2, h.1⟩) _ more
        · refine ⟨0, ?_⟩
          rw [escaped, if_pos rfl, if_neg (by simp [hquotes])]
          exact multilineBasic?_escape done isEscape_quote
      · refine ⟨0, ?_⟩
        rw [escaped, if_neg hc, List.append_assoc, List.append_assoc, ← List.append_assoc (escaped _ _ _)]
        rcases escape_cases true c with ⟨code, h, hcode⟩ | ⟨-, rfl, h⟩ | ⟨h, hbackslash, hcontrol⟩
        · rw [h, multilineBasic?_escape done hcode]
        · rw [h]
          exact multilineBasic?.eq_6 _ _
        · rw [h]
          exact multilineBasic?_plain done hc hbackslash hcontrol
    obtain ⟨quotes', hstep⟩ := hstep
    rw [hstep, ih, List.reverse_cons, List.append_assoc]
    rfl

theorem multilineLiteral?_close {k : Nat} (hk : k ≤ 2) (hrest : ∀ more, rest ≠ '\'' :: more) :
    multilineLiteral? done (List.replicate k '\'' ++ ['\'', '\'', '\''] ++ rest) =
      some (String.ofList (done.reverse ++ List.replicate k '\''), rest) := by
  interval_cases k
  · simp [multilineLiteral?, hrest]
  · simp [multilineLiteral?]
  · simp [multilineLiteral?]

theorem multilineLiteral?_quote (h : ∀ more, tail ≠ '\'' :: '\'' :: more) :
    multilineLiteral? done ('\'' :: tail) = multilineLiteral? ('\'' :: done) tail := by
  rw [multilineLiteral?, show isControl '\'' = false from rfl]
  · rfl
  · exact fun more _ => h _
  · exact fun more _ => h _
  · exact fun more _ => h _
  all_goals simp

theorem multilineLiteral?_plain (hquote : c ≠ '\'') (hcontrol : isControl c = false) :
    multilineLiteral? done (c :: tail) = multilineLiteral? (c :: done) tail := by
  obtain ⟨hnewline, hreturn⟩ := not_lineBreak hcontrol
  rw [multilineLiteral?, hcontrol]
  · rfl
  · exact fun _ h => absurd h hquote
  · exact fun _ h => absurd h hquote
  · exact fun _ h => absurd h hquote
  · exact fun _ h => absurd h hreturn
  · exact hnewline

end Multiline

/-! ### Quotes in a row -/

section Runs

variable (q : Char)

theorem le_longestRun (here : Nat) (cs : List Char) : here ≤ longestRun q here cs := by
  induction cs generalizing here with
  | nil => exact Nat.le_refl here
  | cons c cs ih =>
    rw [longestRun]
    split
    · exact Nat.le_trans (Nat.le_succ here) (ih (here + 1))
    · exact Nat.le_max_left here _

theorem longestRun_mono {here here' : Nat} (h : here ≤ here') (cs : List Char) :
    longestRun q here cs ≤ longestRun q here' cs := by
  induction cs generalizing here here' with
  | nil => exact h
  | cons c cs ih =>
    rw [longestRun, longestRun]
    split
    · exact ih (Nat.succ_le_succ h)
    · exact max_le_max_right _ h

theorem longestRun_le_cons (c : Char) (cs : List Char) :
    longestRun q 0 cs ≤ longestRun q 0 (c :: cs) := by
  rw [longestRun]
  split
  · exact longestRun_mono q (Nat.zero_le 1) cs
  · exact Nat.le_max_right 0 _

theorem three_le_longestRun (cs : List Char) : 3 ≤ longestRun q 0 (q :: q :: q :: cs) := by
  simp only [longestRun, if_true]
  exact le_longestRun q 3 cs

theorem not_mem_of_longestRun_eq_zero {cs : List Char} (h : longestRun q 0 cs = 0) : q ∉ cs := by
  induction cs with
  | nil => exact List.not_mem_nil
  | cons c cs ih =>
    have htail := longestRun_le_cons q c cs
    rw [h] at htail
    rw [longestRun] at h
    split at h
    · have := le_longestRun q (0 + 1) cs
      omega
    · simpa [eq_comm (a := q)] using ⟨‹_›, ih (Nat.le_zero.mp htail)⟩

end Runs

theorem multilineLiteral?_append (done : List Char) {cs rest : List Char}
    (hruns : longestRun '\'' 0 cs ≤ 2) (hplain : ∀ c ∈ cs, c = '\n' ∨ isControl c = false)
    (hrest : ∀ more, rest ≠ '\'' :: more) :
    multilineLiteral? done (cs ++ ['\'', '\'', '\''] ++ rest) =
      some (String.ofList (done.reverse ++ cs), rest) := by
  induction cs generalizing done with
  | nil => exact multilineLiteral?_close done (Nat.zero_le 2) hrest
  | cons c cs ih =>
    -- up to two quotes at the end are read together with the closing ones, as in the basic style
    by_cases hone : c = '\'' ∧ cs = []
    · obtain ⟨rfl, rfl⟩ := hone
      exact multilineLiteral?_close done (k := 1) (by decide) hrest
    by_cases htwo : c = '\'' ∧ cs = ['\'']
    · obtain ⟨rfl, rfl⟩ := htwo
      exact multilineLiteral?_close done (k := 2) (by decide) hrest
    have hstep : multilineLiteral? done (c :: cs ++ ['\'', '\'', '\''] ++ rest) =
        multilineLiteral? (c :: done) (cs ++ ['\'', '\'', '\''] ++ rest) := by
      by_cases hc : c = '\''
      · subst hc
        refine multilineLiteral?_quote done fun more hquotes => ?_
        rcases cs with _ | ⟨d, _ | ⟨e, cs⟩⟩
        · exact hone ⟨rfl, rfl⟩
        · obtain ⟨rfl, -⟩ := List.cons.inj hquotes
          exact htwo ⟨rfl, rfl⟩
        · obtain ⟨rfl, hquote⟩ := List.cons.inj hquotes
          obtain ⟨rfl, -⟩ := List.cons.inj hquote
          exact absurd hruns (Nat.not_le_of_lt (three_le_longestRun '\'' cs))
      · rcases hplain c List.mem_cons_self with rfl | hcontrol
        · exact multilineLiteral?.eq_6 _ _
        · exact multilineLiteral?_plain done hc hcontrol
    rw [hstep, ih _ (Nat.le_trans (longestRun_le_cons '\'' c cs) hruns)
      fun c hc => hplain c (List.mem_cons_of_mem _ hc), List.reverse_cons, List.append_assoc]
    rfl

/-! ### In any style -/

/-- A line break is put before a string that would lose one. -/
theorem afterNewline_leadingNewline {cs tail : List Char}
    (h : '\n' ∉ cs → ∀ c ∈ tail.head?, c ≠ '\n' ∧ c ≠ '\r') :
    afterNewline (leadingNewline cs ++ tail) = tail := by
  unfold leadingNewline
  split
  · rfl
  · rename_i hcs
    rcases tail with _ | ⟨c, tail⟩
    · rfl
    obtain ⟨hnewline, hreturn⟩ := h (by simpa using hcs) c rfl
    rw [List.nil_append, afterNewline, newline?]
    · rfl
    · exact fun _ heq => absurd (List.cons.inj heq).1 hnewline
    · exact fun _ heq => absurd (List.cons.inj heq).1 hreturn

/-- A string without escapes has only characters that need none. -/
theorem plain_of_not_control {cs : List Char}
    (h : (cs.any fun c => isControl c && c != '\n') = false) :
    ∀ c ∈ cs, c = '\n' ∨ isControl c = false := by
  intro c hc
  have hc := List.any_eq_false.mp h c hc
  by_cases hn : c = '\n'
  · exact .inl hn
  · exact .inr (by simpa [hn] using hc)

theorem plain_of_literal {cs : List Char} (h : Style.of cs = .literal) :
    ∀ c ∈ cs, c ≠ '\'' ∧ isControl c = false := by
  dsimp only [Style.of] at h
  split_ifs at h with _ hliteral
  simp only [Bool.and_eq_true, Bool.not_eq_true', beq_iff_eq, List.contains_eq_mem,
    decide_eq_false_iff_not] at hliteral
  obtain ⟨⟨hcontrol, hsingles⟩, hnewline⟩ := hliteral
  intro c hc
  refine ⟨?_, (plain_of_not_control hcontrol c hc).resolve_left ?_⟩
  · rintro rfl
    exact not_mem_of_longestRun_eq_zero _ hsingles hc
  · rintro rfl
    exact hnewline hc

theorem plain_of_multilineLiteral {cs : List Char} (h : Style.of cs = .multilineLiteral) :
    longestRun '\'' 0 cs ≤ 2 ∧ ∀ c ∈ cs, c = '\n' ∨ isControl c = false := by
  dsimp only [Style.of] at h
  split_ifs at h with _ _ _ hliteral
  simp only [Bool.and_eq_true, Bool.not_eq_true', decide_eq_true_eq] at hliteral
  exact ⟨hliteral.2, plain_of_not_control hliteral.1⟩

section Styles

variable (cs : List Char) {rest : List Char}

theorem anyString?_basic (hrest : ∀ more, rest ≠ '"' :: more) :
    anyString? ('"' :: escaped false 0 cs ++ ['"'] ++ rest) = some (String.ofList cs, rest) := by
  have hone : anyString? ('"' :: escaped false 0 cs ++ ['"'] ++ rest) =
      string? ('"' :: escaped false 0 cs ++ ['"'] ++ rest) := by
    rw [anyString?]
    · intro more heq
      -- a quote right behind the opening one closes an empty string
      rcases cs with _ | ⟨c, cs⟩
      · exact hrest more (by simpa [escaped] using heq)
      · by_cases hc : c = '"'
        · simp [escaped, hc] at heq
        · exact escape_ne_quote false hc (escaped false 0 cs ++ ['"'] ++ rest) ('"' :: more)
            (by simpa [escaped, hc] using heq)
    · simp
  have h := basic?_escaped [] 0 cs rest
  rw [hone]
  simpa [string?] using h

theorem anyString?_literal (hplain : ∀ c ∈ cs, c ≠ '\'' ∧ isControl c = false)
    (hrest : ∀ more, rest ≠ '\'' :: more) :
    anyString? ('\'' :: cs ++ ['\''] ++ rest) = some (String.ofList cs, rest) := by
  have hone : anyString? ('\'' :: cs ++ ['\''] ++ rest) =
      string? ('\'' :: cs ++ ['\''] ++ rest) := by
    rw [anyString?]
    · simp
    · intro more heq
      rcases cs with _ | ⟨c, cs⟩
      · exact hrest more (by simpa using heq)
      · exact (hplain c List.mem_cons_self).1 (List.cons.inj (List.cons.inj heq).2).1
  have h := literal?_append [] hplain rest
  rw [hone]
  simpa [string?] using h

theorem anyString?_multilineBasic (hrest : ∀ more, rest ≠ '"' :: more) :
    anyString? (['"', '"', '"'] ++ leadingNewline cs ++ escaped true 0 cs ++ ['"', '"', '"'] ++ rest) =
      some (String.ofList cs, rest) := by
  have hnewline : afterNewline (leadingNewline cs ++ (escaped true 0 cs ++ ['"', '"', '"'] ++ rest)) =
      escaped true 0 cs ++ ['"', '"', '"'] ++ rest := by
    rw [List.append_assoc]
    exact afterNewline_leadingNewline fun hcs => head_escaped hcs _
  have h := multilineBasic?_escaped [] 0 cs hrest
  simp only [List.append_assoc, List.cons_append, List.nil_append, anyString?] at h hnewline ⊢
  rw [hnewline, h]
  rfl

theorem anyString?_multilineLiteral (hruns : longestRun '\'' 0 cs ≤ 2)
    (hplain : ∀ c ∈ cs, c = '\n' ∨ isControl c = false) (hrest : ∀ more, rest ≠ '\'' :: more) :
    anyString? (['\'', '\'', '\''] ++ leadingNewline cs ++ cs ++ ['\'', '\'', '\''] ++ rest) =
      some (String.ofList cs, rest) := by
  have hnewline : afterNewline (leadingNewline cs ++ (cs ++ ['\'', '\'', '\''] ++ rest)) =
      cs ++ ['\'', '\'', '\''] ++ rest := by
    refine afterNewline_leadingNewline fun hcs d hd => ?_
    rcases cs with _ | ⟨c, cs⟩
    · obtain rfl : '\'' = d := by simpa using hd
      decide
    · obtain rfl : c = d := by simpa using hd
      exact not_lineBreak ((hplain c List.mem_cons_self).resolve_left
        fun h => hcs (h ▸ List.mem_cons_self))
  have h := multilineLiteral?_append [] hruns hplain hrest
  simp only [List.append_assoc, List.cons_append, List.nil_append, anyString?] at h hnewline ⊢
  rw [hnewline, h]
  rfl

/-- A string is read back in the style it is written in. A quote right behind it could belong to
it. -/
theorem anyString?_quoted (hdouble : ∀ more, rest ≠ '"' :: more)
    (hsingle : ∀ more, rest ≠ '\'' :: more) :
    anyString? (quoted cs ++ rest) = some (String.ofList cs, rest) := by
  unfold quoted
  split
  · exact anyString?_basic cs hdouble
  · exact anyString?_literal cs (plain_of_literal ‹_›) hsingle
  · exact anyString?_multilineBasic cs hdouble
  · obtain ⟨hruns, hplain⟩ := plain_of_multilineLiteral ‹_›
    exact anyString?_multilineLiteral cs hruns hplain hsingle

example : quoted ['"', '\''] = ['"', '"', '"', '"', '\'', '"', '"', '"'] := by decide

end Styles

end Toml

end MinecraftWire
