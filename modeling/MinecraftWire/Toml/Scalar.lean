import MinecraftWire.Toml.Value

/-! TOML values that are written as one word: numbers, truth values, dates and times. -/

namespace MinecraftWire.Toml

/-- Whether a word may hold a character. -/
def isWordChar (c : Char) : Bool :=
  c.isAlphanum || c == '+' || c == '-' || c == '_' || c == '.' || c == ':'

/-! ### Digits -/

/-- The value of a digit in a base up to sixteen. -/
def digit? (base : Nat) (c : Char) : Option Nat :=
  (Hex.value? c).filter (· < base)

/-- Digits, single underscores between them allowed. -/
def digits? (base : Nat) : List Char → Option (List Nat)
  | [] => none
  | [c] => (digit? base c).map ([·])
  | c :: '_' :: cs =>
    match digit? base c, digits? base cs with
    | some d, some ds => some (d :: ds)
    | _, _ => none
  | c :: cs =>
    match digit? base c, digits? base cs with
    | some d, some ds => some (d :: ds)
    | _, _ => none

def ofDigits (base : Nat) (ds : List Nat) : Nat :=
  ds.foldl (base * · + ·) 0

/-- Decimal digits without a needless zero at the front. -/
def wholeDigits? (cs : List Char) : Option (List Nat) :=
  match digits? 10 cs with
  | some (0 :: _ :: _) => none
  | ds => ds

/-- Whether a number has a minus sign, and what follows its sign. -/
def sign : List Char → Bool × List Char
  | '-' :: cs => (true, cs)
  | '+' :: cs => (false, cs)
  | cs => (false, cs)

/-! ### Numbers -/

/-- An integer, unless it takes more than 64 bits. Only decimal ones have a sign. -/
def integer? (cs : List Char) : Option Int :=
  let n : Option Int :=
    match cs with
    | '0' :: 'x' :: cs => (digits? 16 cs).map fun ds => (ofDigits 16 ds : Int)
    | '0' :: 'o' :: cs => (digits? 8 cs).map fun ds => (ofDigits 8 ds : Int)
    | '0' :: 'b' :: cs => (digits? 2 cs).map fun ds => (ofDigits 2 ds : Int)
    | cs =>
      let (negative, cs) := sign cs
      (wholeDigits? cs).map fun ds => if negative then -(ofDigits 10 ds : Int) else ofDigits 10 ds
  n.filter fun n => -2 ^ 63 ≤ n && n < 2 ^ 63

/-- Whether `m · 10 ^ e` is too great for a double: it rounds to two to the power of 1024 at least. -/
def exceedsDouble (m : Nat) (e : Int) : Bool :=
  let length : Int := (Nat.toDigits 10 m).length
  let bound := 2 ^ 1024 - 2 ^ 970
  if m = 0 ∨ length + e < 309 then false
  else if 309 < length + e then true
  else if e < 0 then bound * 10 ^ e.natAbs ≤ m
  else bound ≤ m * 10 ^ e.toNat

/-- The exponent of a float: none, or digits with a sign of their own. -/
def exponent? : List Char → Option Int
  | [] => some 0
  | _ :: cs =>
    let (negative, cs) := sign cs
    (digits? 10 cs).map fun ds => if negative then -(ofDigits 10 ds : Int) else ofDigits 10 ds

/-- The digits of a fraction behind its point, or none. -/
def fraction? : List Char → Option (List Nat)
  | [] => some []
  | _ :: cs => digits? 10 cs

/-- Whether a word is a float: a number with a fraction or an exponent that is not too great, infinity,
or no number. -/
def isFloat (cs : List Char) : Bool :=
  let (negative, cs) := sign cs
  let isE (c : Char) := c == 'e' || c == 'E'
  let mantissa := cs.takeWhile (!isE ·)
  let exponent := cs.dropWhile (!isE ·)
  let whole := mantissa.takeWhile (· != '.')
  let fraction := mantissa.dropWhile (· != '.')
  cs == ['i', 'n', 'f'] || cs == ['n', 'a', 'n'] ||
    (!(fraction.isEmpty && exponent.isEmpty) &&
      match wholeDigits? whole, fraction? fraction, exponent? exponent with
      | some ds, some fs, some e =>
        negative || !exceedsDouble (ofDigits 10 (ds ++ fs)) (e - fs.length)
      | _, _, _ => false)

/-! ### Dates and times -/

/-- The number of digits only. -/
def number? (cs : List Char) : Option Nat :=
  if cs.all Char.isDigit then some (ofDigits 10 (cs.map fun c => c.toNat - '0'.toNat)) else none

/-- Whether digits make a number within bounds. -/
def within (low high : Nat) (cs : List Char) : Bool :=
  match number? cs with
  | some n => low ≤ n && n ≤ high
  | none => false

def daysInMonth (year month : Nat) : Nat :=
  if month = 2 then
    if year % 4 = 0 ∧ (year % 100 ≠ 0 ∨ year % 400 = 0) then 29 else 28
  else if month = 4 ∨ month = 6 ∨ month = 9 ∨ month = 11 then 30
  else 31

/-- What follows a date at the front of a word. -/
def date? : List Char → Option (List Char)
  | a :: b :: c :: d :: '-' :: e :: f :: '-' :: g :: h :: rest =>
    match number? [a, b, c, d], number? [e, f] with
    | some year, some month =>
      if 1 ≤ month ∧ month ≤ 12 ∧ within 1 (daysInMonth year month) [g, h] then some rest else none
    | _, _ => none
  | _ => none

/-- What follows a time at the front of a word. A leap second is allowed. -/
def time? : List Char → Option (List Char)
  | a :: b :: ':' :: c :: d :: ':' :: e :: f :: rest =>
    if within 0 23 [a, b] ∧ within 0 59 [c, d] ∧ within 0 60 [e, f] then
      match rest with
      | '.' :: cs =>
        if (cs.takeWhile Char.isDigit).isEmpty then none else some (cs.dropWhile Char.isDigit)
      | rest => some rest
    else none
  | _ => none

/-- An offset from universal time, or none. -/
def isOffset : List Char → Bool
  | [] => true
  | ['Z'] | ['z'] => true
  | [s, a, b, ':', c, d] => (s == '+' || s == '-') && within 0 23 [a, b] && within 0 59 [c, d]
  | _ => false

def isDate (cs : List Char) : Bool :=
  date? cs == some []

/-- Whether a word is a time of day that may have an offset. -/
def isClock (cs : List Char) : Bool :=
  match time? cs with
  | some rest => isOffset rest
  | none => false

def isDateTime (cs : List Char) : Bool :=
  isDate cs || time? cs == some [] ||
    match date? cs with
    | some (t :: rest) => (t == 'T' || t == 't') && isClock rest
    | _ => false

/-! ### Words -/

def ofWord? (cs : List Char) : Option Value :=
  if cs = ['t', 'r', 'u', 'e'] then some (.boolean true)
  else if cs = ['f', 'a', 'l', 's', 'e'] then some (.boolean false)
  else
    match integer? cs with
    | some n => some (.integer n)
    | none =>
      if isFloat cs then some .float
      else if isDateTime cs then some .dateTime
      else none

/-- The word at the front of a text and what follows it. -/
def word (cs : List Char) : List Char × List Char :=
  (cs.takeWhile isWordChar, cs.dropWhile isWordChar)

/-- The value of the word at the front of a text, and what follows. A time of day may stand behind a
date and one space. -/
def scalar? (cs : List Char) : Option (Value × List Char) :=
  match word cs with
  | (w, ' ' :: rest) =>
    if isDate w ∧ isClock (word rest).1 then some (.dateTime, (word rest).2)
    else (ofWord? w).map (·, ' ' :: rest)
  | (w, rest) => (ofWord? w).map (·, rest)

end MinecraftWire.Toml
