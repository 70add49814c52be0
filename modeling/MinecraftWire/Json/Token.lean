import MinecraftWire.Bytes
import MinecraftWire.Json.Number

/-! The tokens of a JSON text: marks, and values that are written in one piece. -/

namespace MinecraftWire.Json

inductive Token where
  | arrayStart | arrayEnd | objectStart | objectEnd | comma | colon
  | scalar (v : Native)

/-! ### Strings -/

/-- The code unit of four hexadecimal digits. -/
def unit? (a b c d : Char) : Option Nat :=
  Hex.readFrom 0 [a, b, c, d]

def escape? : Char → Option Char
  | '"' => some '"'
  | '\\' => some '\\'
  | '/' => some '/'
  | 'b' => some '\x08'
  | 'f' => some '\x0c'
  | 'n' => some '\n'
  | 'r' => some '\r'
  | 't' => some '\t'
  | _ => none

/-- The character of a code unit that stands alone. -/
def lone? (n : Nat) : Option Char :=
  if 0xD800 ≤ n ∧ n < 0xE000 then none else some (Char.ofNat n)

/-- The character of a leading and a trailing surrogate. -/
def pair? (high low : Nat) : Option Char :=
  if 0xD800 ≤ high ∧ high < 0xDC00 ∧ 0xDC00 ≤ low ∧ low < 0xE000 then
    some (Char.ofNat (0x10000 + (high - 0xD800) * 0x400 + (low - 0xDC00)))
  else none

/-- The character at the front of the inside of a string, and what follows it. -/
def character? : List Char → Option (Char × List Char)
  | '\\' :: 'u' :: a :: b :: c :: d :: rest => do
    let high ← unit? a b c d
    match lone? high, rest with
    | some ch, rest => some (ch, rest)
    | none, '\\' :: 'u' :: e :: f :: g :: h :: rest => do
      return (← pair? high (← unit? e f g h), rest)
    | none, _ => none
  | '\\' :: c :: rest => (escape? c).map (·, rest)
  | c :: rest => if c = '\\' ∨ c.toNat < 0x20 then none else some (c, rest)
  | [] => none

theorem length_of_character? {cs rest : List Char} {c : Char} (h : character? cs = some (c, rest)) :
    rest.length < cs.length := by
  unfold character? at h
  split at h
  · simp only [Option.bind_eq_bind, Option.bind_eq_some_iff] at h
    obtain ⟨high, -, h⟩ := h
    split at h
    · simp only [Option.some.injEq, Prod.mk.injEq] at h
      simp only [← h.2, List.length_cons]
      omega
    · simp only [Option.bind_eq_some_iff, Option.pure_def, Option.some.injEq, Prod.mk.injEq] at h
      obtain ⟨_, -, _, -, -, rfl⟩ := h
      simp
      omega
    · simp at h
  · simp only [Option.map_eq_some_iff, Prod.mk.injEq] at h
    obtain ⟨_, -, -, rfl⟩ := h
    simp only [List.length_cons]
    omega
  · split at h <;> simp_all
  · simp at h

/-- A string up to its closing quote, and what follows; `done` holds its start, last character
first. -/
def string? (done cs : List Char) : Option (String × List Char) :=
  match cs with
  | '"' :: rest => some (String.ofList done.reverse, rest)
  | cs =>
    match _h : character? cs with
    | none => none
    | some (c, rest) => string? (c :: done) rest
termination_by cs.length
decreasing_by exact length_of_character? _h

theorem length_of_string? {done cs rest : List Char} {s : String}
    (h : string? done cs = some (s, rest)) : rest.length < cs.length := by
  fun_induction string? done cs with
  | case1 => simp_all
  | case2 => simp at h
  | case3 done cs hq c rest' hc ih =>
    have := ih h
    have := length_of_character? hc
    omega

/-! ### Tokens -/

def isBlank (c : Char) : Bool :=
  c == ' ' || c == '\t' || c == '\n' || c == '\r'

/-- The token at the front of a text, and what follows it. -/
def token? : List Char → Option (Token × List Char)
  | '[' :: cs => some (.arrayStart, cs)
  | ']' :: cs => some (.arrayEnd, cs)
  | '{' :: cs => some (.objectStart, cs)
  | '}' :: cs => some (.objectEnd, cs)
  | ',' :: cs => some (.comma, cs)
  | ':' :: cs => some (.colon, cs)
  | 'n' :: 'u' :: 'l' :: 'l' :: cs => some (.scalar .null, cs)
  | 't' :: 'r' :: 'u' :: 'e' :: cs => some (.scalar (.bool true), cs)
  | 'f' :: 'a' :: 'l' :: 's' :: 'e' :: cs => some (.scalar (.bool false), cs)
  | '"' :: cs => (string? [] cs).map fun (s, rest) => (.scalar (.string s), rest)
  | cs => (number? cs).map fun (v, rest) => (.scalar v, rest)

theorem length_of_token? {cs rest : List Char} {t : Token} (h : token? cs = some (t, rest)) :
    rest.length < cs.length := by
  unfold token? at h
  split at h
  case h_10 =>
    simp only [Option.map_eq_some_iff, Prod.mk.injEq, Prod.exists] at h
    obtain ⟨_, _, hs, -, rfl⟩ := h
    have := length_of_string? hs
    simp only [List.length_cons]
    omega
  case h_11 =>
    simp only [Option.map_eq_some_iff, Prod.mk.injEq, Prod.exists] at h
    obtain ⟨_, _, hs, -, rfl⟩ := h
    exact length_of_number? hs
  all_goals
    simp only [Option.some.injEq, Prod.mk.injEq] at h
    simp only [← h.2, List.length_cons]
    omega

/-- The tokens of a whole text. -/
def tokens? (cs : List Char) : Option (List Token) :=
  match cs with
  | [] => some []
  | c :: rest =>
    if isBlank c then tokens? rest
    else
      match _h : token? (c :: rest) with
      | none => none
      | some (t, rest) => (tokens? rest).map (t :: ·)
termination_by cs.length
decreasing_by
  · simp
  · exact length_of_token? _h

end MinecraftWire.Json
