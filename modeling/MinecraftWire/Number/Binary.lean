import MinecraftWire.FixedWidth

/-! IEEE 754 values by their bits. Every finite value is a whole number of the format's least steps, so
arithmetic is done on natural numbers and rounded once, to the nearest value and to even on a tie. -/

namespace MinecraftWire

/-- A binary interchange format. -/
structure BinaryFormat where
  /-- The bits of a significand. -/
  precision : Nat
  /-- The least step is two to the power of minus this. -/
  scale : Nat
  /-- The bits of infinity. -/
  infinity : Nat

namespace BinaryFormat

def single : BinaryFormat := ⟨24, 149, 255 * 2 ^ 23⟩
def double : BinaryFormat := ⟨53, 1074, 2047 * 2 ^ 52⟩

/-- The value of a finite magnitude in least steps. -/
def steps (f : BinaryFormat) (bits : Nat) : Nat :=
  let hidden := 2 ^ (f.precision - 1)
  if bits < hidden then bits else (hidden + bits % hidden) <<< (bits / hidden - 1)

/-- The magnitude nearest to the quotient of two numbers, infinity if it is too great. -/
def round (f : BinaryFormat) (numerator denominator : Nat) : Nat :=
  let numerator := numerator <<< f.scale
  let excess := (numerator / denominator).log2 + 1 - f.precision
  let unit := denominator <<< excess
  let whole := numerator / unit
  let rest := 2 * (numerator % unit)
  let rounded := if unit < rest ∨ (unit = rest ∧ whole % 2 = 1) then whole + 1 else whole
  min f.infinity (excess * 2 ^ (f.precision - 1) + rounded)

end BinaryFormat

namespace Float32Bits

/-- The bits apart from the sign. -/
def magnitude (v : Float32Bits) : Nat := v.bits.toNat % 2 ^ 31
def isNegative (v : Float32Bits) : Bool := 2 ^ 31 ≤ v.bits.toNat

def ofMagnitude (negative : Bool) (magnitude : Nat) : Float32Bits :=
  ⟨UInt32.ofNat (if negative then 2 ^ 31 + magnitude else magnitude)⟩

/-- The greatest finite value. -/
def greatest : Float32Bits := ⟨0x7F7FFFFF⟩

end Float32Bits

namespace Float64Bits

/-- The bits apart from the sign. -/
def magnitude (v : Float64Bits) : Nat := v.bits.toNat % 2 ^ 63
def isNegative (v : Float64Bits) : Bool := 2 ^ 63 ≤ v.bits.toNat
def isFinite (v : Float64Bits) : Bool := v.magnitude < BinaryFormat.double.infinity
def isNaN (v : Float64Bits) : Bool := BinaryFormat.double.infinity < v.magnitude
def steps (v : Float64Bits) : Nat := BinaryFormat.double.steps v.magnitude

def ofMagnitude (negative : Bool) (magnitude : Nat) : Float64Bits :=
  ⟨UInt64.ofNat (if negative then 2 ^ 63 + magnitude else magnitude)⟩

def zero : Float64Bits := ⟨0⟩

/-- The value nearest to a quotient. -/
def ofRatio (negative : Bool) (numerator denominator : Nat) : Float64Bits :=
  ofMagnitude negative (BinaryFormat.double.round numerator denominator)

def ofInt (n : Int) : Float64Bits :=
  ofRatio (n < 0) n.natAbs 1

/-- The value of a finite one in least steps, with its sign. -/
def signedSteps (v : Float64Bits) : Int :=
  if v.isNegative then -(v.steps : Int) else v.steps

def neg (v : Float64Bits) : Float64Bits :=
  ofMagnitude (!v.isNegative) v.magnitude

/-- The product of two finite values that are not negative. -/
def mulMagnitude (a b : Float64Bits) : Float64Bits :=
  ofRatio false (a.steps * b.steps) (2 ^ (2 * BinaryFormat.double.scale))

/-- The quotient of two finite values that are not negative, the second above zero. -/
def divMagnitude (a b : Float64Bits) : Float64Bits :=
  ofRatio false a.steps b.steps

/-- The magnitude of the difference of two finite values. -/
def distance (a b : Float64Bits) : Nat :=
  BinaryFormat.double.round (a.signedSteps - b.signedSteps).natAbs (2 ^ BinaryFormat.double.scale)

/-- Numerical equality: the zeros are equal, and what is not a number equals nothing. -/
def equal (a b : Float64Bits) : Bool :=
  !a.isNaN && !b.isNaN && (a == b || (a.magnitude = 0 && b.magnitude = 0))

/-- Whether two values are equal or at most `tolerance` apart. -/
def near (tolerance a b : Float64Bits) : Bool :=
  equal a b || (a.isFinite && b.isFinite && distance a b ≤ tolerance.magnitude)

/-- The nearest value of the shorter format; what is not a number keeps its leading bits. -/
def narrow (v : Float64Bits) : Float32Bits :=
  .ofMagnitude v.isNegative <|
    if v.isFinite then BinaryFormat.single.round v.steps (2 ^ BinaryFormat.double.scale)
    else if v.isNaN then BinaryFormat.single.infinity ||| 2 ^ 22 ||| v.magnitude % 2 ^ 52 / 2 ^ 29
    else BinaryFormat.single.infinity

end Float64Bits

/-- The same value in the longer format; what is not a number is made quiet. -/
def Float32Bits.widen (v : Float32Bits) : Float64Bits :=
  .ofMagnitude v.isNegative <|
    if v.magnitude < BinaryFormat.single.infinity then
      BinaryFormat.double.round (BinaryFormat.single.steps v.magnitude)
        (2 ^ BinaryFormat.single.scale)
    else if BinaryFormat.single.infinity < v.magnitude then
      BinaryFormat.double.infinity ||| 2 ^ 51 ||| v.magnitude % 2 ^ 23 * 2 ^ 29
    else BinaryFormat.double.infinity

end MinecraftWire
