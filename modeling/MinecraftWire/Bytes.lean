/-! Byte strings: their reading as big-endian numbers and their hexadecimal text. -/

namespace MinecraftWire

-- Powers and zeros of numbers are the core library's, whatever algebra is imported beside it.
attribute [instance (2000)] instPowNat Zero.ofOfNat0
attribute [default_instance 10001] instPowNat

abbrev Bytes := List UInt8

namespace Bytes

/-- The low `size` bytes of `n`, most significant first. -/
def ofNat : Nat → Nat → Bytes
  | 0, _ => []
  | size + 1, n => ofNat size (n / 256) ++ [UInt8.ofNat n]

/-- The number whose bytes, most significant first, are given. -/
def toNat (bytes : Bytes) : Nat :=
  bytes.foldl (fun n b => 256 * n + b.toNat) 0

theorem length_ofNat (size n : Nat) : (ofNat size n).length = size := by
  induction size generalizing n with
  | zero => rfl
  | succ size ih => simp [ofNat, ih]

theorem toNat_append_singleton (bytes : Bytes) (b : UInt8) :
    toNat (bytes ++ [b]) = 256 * toNat bytes + b.toNat := by
  simp [toNat]

end Bytes

namespace Hex

def digit (n : Nat) : Char :=
  Nat.digitChar (n % 16)

/-- A byte as two lower-case digits. -/
def byte (b : UInt8) : String :=
  String.ofList [digit (b.toNat / 16), digit b.toNat]

/-- Lower-case digits of `n`, padded with zeros to `width`. -/
def padded (width n : Nat) : String :=
  let digits := Nat.toDigits 16 n
  String.ofList (List.replicate (width - digits.length) '0' ++ digits)

/-- The value of a digit in either case. -/
def value? (c : Char) : Option Nat :=
  if '0' ≤ c ∧ c ≤ '9' then some (c.toNat - '0'.toNat)
  else if 'a' ≤ c ∧ c ≤ 'f' then some (c.toNat - 'a'.toNat + 10)
  else if 'A' ≤ c ∧ c ≤ 'F' then some (c.toNat - 'A'.toNat + 10)
  else none

/-- Read digits only; `acc` is the value of those before. -/
def readFrom (acc : Nat) : List Char → Option Nat
  | [] => some acc
  | c :: cs =>
    match value? c with
    | some d => readFrom (16 * acc + d) cs
    | none => none

end Hex

end MinecraftWire
