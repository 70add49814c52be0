import MinecraftWire.Bytes

/-! Strings in TOML. A basic string is in double quotes and has escapes, a literal one is in single
quotes and has none; either may span lines between triple quotes, where a line break right after the
opening quotes does not count. -/

namespace MinecraftWire.Toml

inductive Style where
  | basic | literal | multilineBasic | multilineLiteral
  deriving DecidableEq, Repr

/-- A control character other than a tab. No string and no comment holds one as it is, line breaks
between triple quotes apart. -/
def isControl (c : Char) : Bool :=
  (c.toNat < 0x20 && c != '\t') || c.toNat == 0x7F

/-! ### Reading -/

/-- The character with a code point, unless it is a surrogate or too great. -/
def codePoint? (n : Nat) : Option Char :=
  if n < 0xD800 ∨ 0xE000 ≤ n ∧ n < 0x110000 then some (Char.ofNat n) else none

/-- The character at the front of a text that an escape stands for, after its backslash, and what
follows. -/
def escape? : List Char → Option (Char × List Char)
  | 'b' :: cs => some ('\x08', cs)
  | 't' :: cs => some ('\t', cs)
  | 'n' :: cs => some ('\n', cs)
  | 'f' :: cs => some ('\x0c', cs)
  | 'r' :: cs => some ('\r', cs)
  | '"' :: cs => some ('"', cs)
  | '\\' :: cs => some ('\\', cs)
  | 'u' :: a :: b :: c :: d :: cs =>
    ((Hex.readFrom 0 [a, b, c, d]).bind codePoint?).map (·, cs)
  | 'U' :: a :: b :: c :: d :: e :: f :: g :: h :: cs =>
    ((Hex.readFrom 0 [a, b, c, d, e, f, g, h]).bind codePoint?).map (·, cs)
  | _ => none

theorem length_of_escape? {cs rest : List Char} {c : Char} (h : escape? cs = some (c, rest)) :
    rest.length < cs.length := by
  unfold escape? at h
  split at h <;>
    simp only [Option.map_eq_some_iff, Prod.mk.injEq, Option.some.injEq, reduceCtorEq] at h
  case h_8 | h_9 =>
    obtain ⟨_, -, -, rfl⟩ := h
    simp only [List.length_cons]
    omega
  all_goals simp [← h.2]

/-- The inside of a basic string and what follows its closing quote; `done` holds its start, last
character first. -/
def basic? (done cs : List Char) : Option (String × List Char) :=
  match cs with
  | [] => none
  | '"' :: rest => some (String.ofList done.reverse, rest)
  | '\\' :: rest =>
    match _h : escape? rest with
    | some (c, rest) => basic? (c :: done) rest
    | none => none
  | c :: rest => if isControl c then none else basic? (c :: done) rest
termination_by cs.length
decreasing_by
  · have := length_of_escape? _h
    simp only [List.length_cons]
    omega
  · simp

def literal? (done : List Char) : List Char → Option (String × List Char)
  | [] => none
  | '\'' :: rest => some (String.ofList done.reverse, rest)
  | c :: rest => if isControl c then none else literal? (c :: done) rest

/-- Without the blanks and line breaks at its front. -/
def dropLines : List Char → List Char
  | ' ' :: cs => dropLines cs
  | '\t' :: cs => dropLines cs
  | '\n' :: cs => dropLines cs
  | '\r' :: '\n' :: cs => dropLines cs
  | cs => cs

def isBlank (c : Char) : Bool :=
  c == ' ' || c == '\t'

/-- What follows a line break at the front of a text. -/
def newline? : List Char → Option (List Char)
  | '\n' :: cs => some cs
  | '\r' :: '\n' :: cs => some cs
  | _ => none

theorem length_dropLines_le (cs : List Char) : (dropLines cs).length ≤ cs.length := by
  fun_induction dropLines cs with
  | case1 | case2 | case3 | case4 =>
    simp only [List.length_cons]
    omega
  | case5 => exact Nat.le_refl _

theorem length_of_newline? {cs rest : List Char} (h : newline? cs = some rest) :
    rest.length < cs.length := by
  unfold newline? at h
  split at h <;> simp only [Option.some.injEq, reduceCtorEq] at h
  all_goals
    rw [← h]
    simp only [List.length_cons]
    omega

/-- The inside of a basic string between triple quotes. One or two quotes stand for themselves, also
right before the closing ones; a backslash at the end of a line joins it to the next that is not
blank. -/
def multilineBasic? (done cs : List Char) : Option (String × List Char) :=
  match cs with
  | [] => none
  | '"' :: '"' :: '"' :: '"' :: '"' :: rest => some (String.ofList ('"' :: '"' :: done).reverse, rest)
  | '"' :: '"' :: '"' :: '"' :: rest => some (String.ofList ('"' :: done).reverse, rest)
  | '"' :: '"' :: '"' :: rest => some (String.ofList done.reverse, rest)
  | '\r' :: '\n' :: rest => multilineBasic? ('\n' :: done) rest
  | '\n' :: rest => multilineBasic? ('\n' :: done) rest
  | '\\' :: rest =>
    match _h : newline? (rest.dropWhile isBlank) with
    | some next => multilineBasic? done (dropLines next)
    | none =>
      match _h : escape? rest with
      | some (c, rest) => multilineBasic? (c :: done) rest
      | none => none
  | c :: rest => if isControl c then none else multilineBasic? (c :: done) rest
termination_by cs.length
decreasing_by
  · simp only [List.length_cons]; omega
  · simp
  · have := length_of_newline? _h
    have := length_dropLines_le next
    have := (List.dropWhile_sublist isBlank (l := rest)).length_le
    simp only [List.length_cons]
    omega
  · have := length_of_escape? _h
    simp only [List.length_cons]
    omega
  · simp

/-- The inside of a literal string between triple quotes. -/
def multilineLiteral? (done : List Char) : List Char → Option (String × List Char)
  | [] => none
  | '\'' :: '\'' :: '\'' :: '\'' :: '\'' :: rest =>
    some (String.ofList ('\'' :: '\'' :: done).reverse, rest)
  | '\'' :: '\'' :: '\'' :: '\'' :: rest => some (String.ofList ('\'' :: done).reverse, rest)
  | '\'' :: '\'' :: '\'' :: rest => some (String.ofList done.reverse, rest)
  | '\r' :: '\n' :: rest => multilineLiteral? ('\n' :: done) rest
  | '\n' :: rest => multilineLiteral? ('\n' :: done) rest
  | c :: rest => if isControl c then none else multilineLiteral? (c :: done) rest

/-- The text after a line break at its front, or all of it. -/
def afterNewline (cs : List Char) : List Char :=
  (newline? cs).getD cs

/-- The string on one line at the front of a text, and what follows it. -/
def string? : List Char → Option (String × List Char)
  | '"' :: cs => basic? [] cs
  | '\'' :: cs => literal? [] cs
  | _ => none

/-- The string in any style at the front of a text, and what follows it. -/
def anyString? : List Char → Option (String × List Char)
  | '"' :: '"' :: '"' :: cs => multilineBasic? [] (afterNewline cs)
  | '\'' :: '\'' :: '\'' :: cs => multilineLiteral? [] (afterNewline cs)
  | cs => string? cs

/-! ### What follows is shorter -/

theorem length_of_basic? {done cs rest : List Char} {s : String}
    (h : basic? done cs = some (s, rest)) : rest.length < cs.length := by
  fun_induction basic? done cs with
  | case1 => simp at h
  | case2 => simp_all
  | case3 done cs c rest' hc ih =>
    have := ih h
    have := length_of_escape? hc
    simp only [List.length_cons]
    omega
  | case4 => simp at h
  | case5 => simp at h
  | case6 done c cs _ _ _ ih =>
    have := ih h
    simp only [List.length_cons]
    omega

theorem length_of_literal? {done cs rest : List Char} {s : String}
    (h : literal? done cs = some (s, rest)) : rest.length < cs.length := by
  fun_induction literal? done cs with
  | case1 => simp at h
  | case2 => simp_all
  | case3 => simp at h
  | case4 done c cs _ _ ih =>
    have := ih h
    simp only [List.length_cons]
    omega

theorem length_of_multilineBasic? {done cs rest : List Char} {s : String}
    (h : multilineBasic? done cs = some (s, rest)) : rest.length < cs.length := by
  fun_induction multilineBasic? done cs with
  | case7 done cs next hn ih =>
    have := ih h
    have := length_of_newline? hn
    have := length_dropLines_le next
    have := (List.dropWhile_sublist isBlank (l := cs)).length_le
    simp only [List.length_cons]
    omega
  | case8 done cs _ c rest' hc ih =>
    have := ih h
    have := length_of_escape? hc
    simp only [List.length_cons]
    omega
  | case5 done cs ih | case6 done cs ih =>
    have := ih h
    simp only [List.length_cons]
    omega
  | case11 done c cs _ _ _ _ _ _ _ ih =>
    have := ih h
    simp only [List.length_cons]
    omega
  | case2 | case3 | case4 =>
    simp only [Option.some.injEq, Prod.mk.injEq] at h
    simp only [← h.2, List.length_cons]
    omega
  | case1 | case9 | case10 => simp at h

theorem length_of_multilineLiteral? {done cs rest : List Char} {s : String}
    (h : multilineLiteral? done cs = some (s, rest)) : rest.length < cs.length := by
  fun_induction multilineLiteral? done cs with
  | case5 done cs ih | case6 done cs ih =>
    have := ih h
    simp only [List.length_cons]
    omega
  | case8 done c cs _ _ _ _ _ _ ih =>
    have := ih h
    simp only [List.length_cons]
    omega
  | case2 | case3 | case4 =>
    simp only [Option.some.injEq, Prod.mk.injEq] at h
    simp only [← h.2, List.length_cons]
    omega
  | case1 | case7 => simp at h

theorem length_afterNewline_le (cs : List Char) : (afterNewline cs).length ≤ cs.length := by
  unfold afterNewline
  cases h : newline? cs with
  | none => exact Nat.le_refl _
  | some rest => exact Nat.le_of_lt (length_of_newline? h)

theorem length_of_string? {cs rest : List Char} {s : String} (h : string? cs = some (s, rest)) :
    rest.length < cs.length := by
  unfold string? at h
  split at h
  · exact Nat.lt_succ_of_lt (length_of_basic? h)
  · exact Nat.lt_succ_of_lt (length_of_literal? h)
  · simp at h

theorem length_of_anyString? {cs rest : List Char} {s : String}
    (h : anyString? cs = some (s, rest)) : rest.length < cs.length := by
  unfold anyString? at h
  split at h
  · rename_i cs
    have := length_of_multilineBasic? h
    have := length_afterNewline_le cs
    simp only [List.length_cons]
    omega
  · rename_i cs
    have := length_of_multilineLiteral? h
    have := length_afterNewline_le cs
    simp only [List.length_cons]
    omega
  · exact length_of_string? h

/-! ### Writing -/

/-- The greatest number of times that a character stands in a row; `here` counts those right before
the text. -/
def longestRun (q : Char) (here : Nat) : List Char → Nat
  | [] => here
  | c :: cs => if c = q then longestRun q (here + 1) cs else max here (longestRun q 0 cs)

/-- The style that needs no escapes, the plainest there is; if there is none, a style with
escapes. -/
def Style.of (cs : List Char) : Style :=
  let control := cs.any fun c => isControl c && c != '\n'
  let backslash := cs.contains '\\'
  let newline := cs.contains '\n'
  let doubles := longestRun '"' 0 cs
  let singles := longestRun '\'' 0 cs
  if !control && !backslash && doubles == 0 && !newline then .basic
  else if !control && singles == 0 && !newline then .literal
  else if !control && !backslash && doubles ≤ 2 then .multilineBasic
  else if !control && singles ≤ 2 then .multilineLiteral
  else if newline then .multilineBasic
  else .basic

def hexEscape (c : Char) : List Char :=
  '\\' :: 'u' :: (Hex.padded 4 c.toNat).toUpper.toList

/-- The form of a character other than a quote in a basic style. Between triple quotes a line break
stands for itself. -/
def escape (multiline : Bool) (c : Char) : List Char :=
  if c = '\x08' then ['\\', 'b']
  else if c = '\t' then ['\\', 't']
  else if c = '\n' then (if multiline then ['\n'] else ['\\', 'n'])
  else if c = '\x0c' then ['\\', 'f']
  else if c = '\r' then ['\\', 'r']
  else if c = '\\' then ['\\', '\\']
  else if isControl c then hexEscape c
  else [c]

/-- The inside of a string in a basic style. Between triple quotes a quote is escaped where it would
be the third in a row; `quotes` counts the quotes right before. -/
def escaped (multiline : Bool) (quotes : Nat) : List Char → List Char
  | [] => []
  | c :: cs =>
    if c = '"' then
      if multiline ∧ quotes < 2 then c :: escaped multiline (quotes + 1) cs
      else '\\' :: '"' :: escaped multiline 0 cs
    else escape multiline c ++ escaped multiline 0 cs

/-- A line break after opening triple quotes, for a string of more than one line. -/
def leadingNewline (cs : List Char) : List Char :=
  if cs.contains '\n' then ['\n'] else []

def quoted (cs : List Char) : List Char :=
  match Style.of cs with
  | .basic => '"' :: escaped false 0 cs ++ ['"']
  | .literal => '\'' :: cs ++ ['\'']
  | .multilineBasic => ['"', '"', '"'] ++ leadingNewline cs ++ escaped true 0 cs ++ ['"', '"', '"']
  | .multilineLiteral => ['\'', '\'', '\''] ++ leadingNewline cs ++ cs ++ ['\'', '\'', '\'']

/-- A text as a string of the style that suits it best. -/
def quote (s : String) : String :=
  String.ofList (quoted s.toList)

end MinecraftWire.Toml
