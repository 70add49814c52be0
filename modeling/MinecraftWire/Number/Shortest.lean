import MinecraftWire.Number.Binary

/-! The fewest decimal digits that read back as a binary value: of the decimals that round to the
value, one with the fewest digits, and of those the nearest to it. -/

namespace MinecraftWire

namespace Shortest

/-- The decimals that round to a value: from `low / unit` to `high / unit`, the ends included or
not. -/
structure Range where
  low : Nat
  value : Nat
  high : Nat
  unit : Nat
  closed : Bool

/-- The range of a finite magnitude that is not zero. Below a power of two the values lie twice as
close. -/
def range (f : BinaryFormat) (bits : Nat) : Range :=
  let hidden := 2 ^ (f.precision - 1)
  let gap := 2 ^ (bits / hidden - 1)
  let value := 4 * f.steps bits
  let below := if bits % hidden = 0 ∧ hidden < bits then gap else 2 * gap
  ⟨value - below, value, value + 2 * gap, 4 * 2 ^ f.scale, bits % 2 = 0⟩

/-- The numbers whose quotient is `digits · 10 ^ exponent` in units of a range. -/
def place (r : Range) (digits : Nat) (exponent : Int) : Nat × Nat :=
  if 0 ≤ exponent then (digits * 10 ^ exponent.toNat * r.unit, 1)
  else (digits * r.unit, 10 ^ exponent.natAbs)

def contains (r : Range) (digits : Nat) (exponent : Int) : Bool :=
  let (n, d) := place r digits exponent
  if r.closed then r.low * d ≤ n && n ≤ r.high * d else r.low * d < n && n < r.high * d

/-- How far a decimal is from the value. -/
def error (r : Range) (digits : Nat) (exponent : Int) : Nat :=
  let (n, d) := place r digits exponent
  max n (r.value * d) - min n (r.value * d)

/-- The least power of ten, from `j` on, that brings `n / d` up to one. -/
def leadingZeros (n d : Nat) : (fuel j : Nat) → Nat
  | 0, j => j
  | fuel + 1, j => if d ≤ n * 10 ^ j then j else leadingZeros n d fuel (j + 1)

/-- The exponent of the first digit of `n / d`. -/
def firstExponent (n d : Nat) : Int :=
  if d ≤ n then (Nat.toDigits 10 (n / d)).length - 1 else -(leadingZeros n d 400 1 : Int)

/-- Try `count` digits, then more, `left` times in all. -/
def search (r : Range) (first : Int) : (left count : Nat) → Nat × Int
  | 0, count => (r.value, first - count)
  | left + 1, count =>
    let exponent := first - count + 1
    let below :=
      if 0 ≤ exponent then r.value / (r.unit * 10 ^ exponent.toNat)
      else r.value * 10 ^ exponent.natAbs / r.unit
    match contains r below exponent, contains r (below + 1) exponent with
    | true, true =>
      if error r (below + 1) exponent < error r below exponent then (below + 1, exponent)
      else (below, exponent)
    | true, false => (below, exponent)
    | false, true => (below + 1, exponent)
    | false, false => search r first left (count + 1)

/-- The shortest decimal of a finite magnitude. -/
def decimal (f : BinaryFormat) (negative : Bool) (bits : Nat) : Decimal :=
  if bits = 0 then ⟨negative, 0, 0⟩
  else
    let r := range f bits
    let (digits, exponent) := search r (firstExponent r.value r.unit) 17 1
    ⟨negative, digits, exponent⟩

end Shortest

def Float32Bits.shortest (v : Float32Bits) : Decimal :=
  Shortest.decimal .single v.isNegative v.magnitude

def Float64Bits.shortest (v : Float64Bits) : Decimal :=
  Shortest.decimal .double v.isNegative v.magnitude

end MinecraftWire
