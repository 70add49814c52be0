/-! Decimal numbers and their texts: integers as settings write them, a sign and digits and nothing
else; and numbers as digits and a power of ten, with every digit in its place. -/

namespace MinecraftWire

namespace Integer

/-- The number of decimal digits only; there must be one. -/
def digits? (cs : List Char) : Option Nat :=
  if !cs.isEmpty && cs.all Char.isDigit then
    some (cs.foldl (fun n c => 10 * n + (c.toNat - '0'.toNat)) 0)
  else none

/-- The number of a text within bounds. A plus sign is allowed, a minus sign only where there are
negative numbers. -/
def parse? (lower upper : Int) (cs : List Char) : Option Int :=
  let n : Option Int :=
    match cs with
    | '+' :: cs => (digits? cs).map fun n => (n : Int)
    | '-' :: cs => if lower < 0 then (digits? cs).map fun n => -(n : Int) else none
    | cs => (digits? cs).map fun n => (n : Int)
  n.filter fun n => lower ≤ n && n ≤ upper

end Integer

/-- The number `± digits · 10 ^ exponent`. -/
structure Decimal where
  negative : Bool
  digits : Nat
  exponent : Int
  deriving DecidableEq, Repr

namespace Decimal

/-- Every digit in its place: zeros fill up to the units, and no exponent is written. -/
def positional (d : Decimal) : String :=
  let digits := Nat.toDigits 10 d.digits
  let body :=
    if 0 ≤ d.exponent then
      digits ++ (if d.digits = 0 then [] else List.replicate d.exponent.toNat '0')
    else
      let places := d.exponent.natAbs
      let padded := List.replicate (places + 1 - digits.length) '0' ++ digits
      padded.take (padded.length - places) ++ '.' :: padded.drop (padded.length - places)
  String.ofList (if d.negative then '-' :: body else body)

end Decimal

end MinecraftWire
