import MinecraftWire.Native
import MinecraftWire.Number.Binary

/-! JSON numbers. A whole number that fits 64 bits is an integer; any other number is a double, made
from a 64-bit significand and a power of ten by one multiplication or a few divisions. -/

namespace MinecraftWire.Json

/-- A number as it is written. -/
structure Numeral where
  negative : Bool
  whole : List Nat
  fraction : Option (List Nat)
  exponent : Option (Bool × List Nat)

namespace Numeral

/-- Take digits into a significand up to the first with which it would exceed 64 bits; the digits that
are left. -/
def absorb : Nat → List Nat → Nat × List Nat
  | significand, [] => (significand, [])
  | significand, d :: rest =>
    if 10 * significand + d < 2 ^ 64 then absorb (10 * significand + d) rest
    else (significand, d :: rest)

/-- The double nearest to a power of ten. -/
def powerOfTen (n : Nat) : Float64Bits :=
  .ofRatio false (10 ^ n) 1

/-- The greatest power of ten that is a double. -/
def maxPower : Nat := 308

/-- Divide by a power of ten, the greatest one at a time. -/
def divide (x : Float64Bits) (n : Nat) : Float64Bits :=
  if n ≤ maxPower then x.divMagnitude (powerOfTen n)
  else if x.magnitude = 0 then x
  else divide (x.divMagnitude (powerOfTen maxPower)) (n - maxPower)
termination_by n
decreasing_by simp only [maxPower] at *; omega

/-- A significand times a power of ten, unless that is too great for a double. -/
def scaled? (significand : Nat) (exponent : Int) : Option Float64Bits :=
  let x := Float64Bits.ofRatio false significand 1
  if exponent < 0 then some (divide x exponent.natAbs)
  else if maxPower < exponent.toNat then if significand = 0 then some x else none
  else
    let product := x.mulMagnitude (powerOfTen exponent.toNat)
    if product.isFinite then some product else none

def ofDigits (digits : List Nat) : Nat :=
  digits.foldl (10 * · + ·) 0

/-- The double of a significand, a power of ten and a written exponent. An exponent of more than 31
bits makes zero, or no double at all. -/
def double? (significand : Nat) (power : Int) : Option (Bool × List Nat) → Option Float64Bits
  | none => scaled? significand power
  | some (negative, digits) =>
    let n := ofDigits digits
    if n < 2 ^ 31 then scaled? significand (if negative then power - n else power + n)
    else if negative || significand = 0 then some .zero
    else none

def value? (n : Numeral) : Option Native :=
  let (significand, beyond) := absorb 0 n.whole
  let signed (x : Float64Bits) : Native := .real (if n.negative then x.neg else x)
  match n.fraction, n.exponent with
  | none, none =>
    if !beyond.isEmpty then (scaled? significand beyond.length).map signed
    else if !n.negative then some (.integer significand)
    else if 0 < significand ∧ significand ≤ 2 ^ 63 then some (.integer (-significand))
    else some (signed (.ofRatio false significand 1))
  | fraction, exponent =>
    let digits := fraction.getD []
    let (significand, unused) := absorb significand digits
    let power : Int := beyond.length - (digits.length - unused.length : Nat)
    (double? significand power exponent).map signed

end Numeral

/-! ### Reading a numeral -/

/-- A run of digits at the front of a text, and what follows it. -/
def digits (cs : List Char) : List Nat × List Char :=
  ((cs.takeWhile Char.isDigit).map fun c => c.toNat - '0'.toNat, cs.dropWhile Char.isDigit)

theorem length_digits_le (cs : List Char) : (digits cs).2.length ≤ cs.length :=
  (List.dropWhile_sublist _).length_le

/-- The fraction at the front of a text, if there is one, and what follows it. -/
def fraction? : List Char → Option (Option (List Nat) × List Char)
  | '.' :: cs =>
    match digits cs with
    | ([], _) => none
    | (ds, rest) => some (some ds, rest)
  | cs => some (none, cs)

def exponentDigits? (negative : Bool) (cs : List Char) :
    Option (Option (Bool × List Nat) × List Char) :=
  match digits cs with
  | ([], _) => none
  | (ds, rest) => some (some (negative, ds), rest)

def exponent? : List Char → Option (Option (Bool × List Nat) × List Char)
  | c :: cs =>
    if c = 'e' ∨ c = 'E' then
      match cs with
      | '-' :: cs => exponentDigits? true cs
      | '+' :: cs => exponentDigits? false cs
      | cs => exponentDigits? false cs
    else some (none, c :: cs)
  | [] => some (none, [])

/-- The digits before the point: no zero stands before another digit. -/
def whole? (cs : List Char) : Option (List Nat × List Char) :=
  match digits cs with
  | ([], _) => none
  | (0 :: _ :: _, _) => none
  | (ds, rest) => some (ds, rest)

def numeral? (negative : Bool) (cs : List Char) : Option (Numeral × List Char) := do
  let (whole, cs) ← whole? cs
  let (fraction, cs) ← fraction? cs
  let (exponent, cs) ← exponent? cs
  return (⟨negative, whole, fraction, exponent⟩, cs)

/-- The number at the front of a text, and what follows it. -/
def number? : List Char → Option (Native × List Char)
  | '-' :: cs => do
    let (n, rest) ← numeral? true cs
    return (← n.value?, rest)
  | cs => do
    let (n, rest) ← numeral? false cs
    return (← n.value?, rest)

/-! ### What follows is shorter -/

theorem length_of_fraction? {cs rest : List Char} {ds : Option (List Nat)}
    (h : fraction? cs = some (ds, rest)) : rest.length ≤ cs.length := by
  unfold fraction? at h
  split at h
  · rename_i cs
    have := length_digits_le cs
    split at h <;> simp_all
    omega
  · simp_all

theorem length_of_exponentDigits? {negative : Bool} {cs rest : List Char}
    {e : Option (Bool × List Nat)} (h : exponentDigits? negative cs = some (e, rest)) :
    rest.length ≤ cs.length := by
  have := length_digits_le cs
  unfold exponentDigits? at h
  split at h <;> simp_all

theorem length_of_exponent? {cs rest : List Char} {e : Option (Bool × List Nat)}
    (h : exponent? cs = some (e, rest)) : rest.length ≤ cs.length := by
  unfold exponent? at h
  split at h
  · split at h
    · split at h <;> have := length_of_exponentDigits? h <;> simp_all <;> omega
    · simp_all
  · simp_all

theorem length_of_whole? {cs rest : List Char} {ds : List Nat} (h : whole? cs = some (ds, rest)) :
    rest.length < cs.length := by
  unfold whole? at h
  split at h
  · simp at h
  · simp at h
  · rename_i hne _ hd
    simp only [Option.some.injEq, Prod.mk.injEq] at h
    cases cs with
    | nil =>
      simp only [digits, List.takeWhile_nil, List.map_nil, Prod.mk.injEq] at hd
      exact absurd hd.1.symm hne
    | cons c cs =>
      by_cases hc : c.isDigit
      · have := (List.dropWhile_sublist Char.isDigit (l := cs)).length_le
        simp only [digits, List.dropWhile_cons, hc, if_true, Prod.mk.injEq] at hd
        rw [← h.2, ← hd.2, List.length_cons]
        omega
      · simp only [digits, List.takeWhile_cons, hc, Bool.false_eq_true, if_false, List.map_nil,
          Prod.mk.injEq] at hd
        exact absurd hd.1.symm hne

theorem length_of_numeral? {negative : Bool} {cs rest : List Char} {n : Numeral}
    (h : numeral? negative cs = some (n, rest)) : rest.length < cs.length := by
  unfold numeral? at h
  simp only [Option.bind_eq_bind, Option.bind_eq_some_iff, Option.pure_def, Option.some.injEq,
    Prod.mk.injEq, Prod.exists] at h
  obtain ⟨_, _, hw, _, _, hf, _, _, he, -, rfl⟩ := h
  have := length_of_whole? hw
  have := length_of_fraction? hf
  have := length_of_exponent? he
  omega

theorem length_of_number? {cs rest : List Char} {v : Native} (h : number? cs = some (v, rest)) :
    rest.length < cs.length := by
  unfold number? at h
  split at h
  all_goals
    simp only [Option.bind_eq_bind, Option.bind_eq_some_iff, Option.pure_def, Option.some.injEq,
      Prod.mk.injEq, Prod.exists] at h
    obtain ⟨_, _, hn, _, _, -, rfl⟩ := h
    have := length_of_numeral? hn
  · exact Nat.lt_succ_of_lt this
  · exact this

end MinecraftWire.Json
