import MinecraftWire.Fault

/-! Values with a big-endian form of fixed length, and integers that are range-checked before they
are written. Floating-point values are their bit patterns. -/

namespace MinecraftWire

/-- A type whose values are words of `size` bytes. -/
class FixedWidth (α : Type) where
  /-- The kind as messages write it. -/
  kind : String
  size : Nat
  toWord : α → Nat
  /-- The value with the given word, if it is one of this kind. -/
  ofWord? : Nat → Option α
  /-- The fault of bytes that are no value of this kind. -/
  refusal : Bytes → Malformation

namespace FixedWidth

def put {α : Type} [FixedWidth α] (v : α) : Bytes :=
  Bytes.ofNat (size α) (toWord v)

/-- The value whose whole form is `bytes`. -/
def take (α : Type) [FixedWidth α] (bytes : Bytes) : Except Fault α :=
  if bytes.length = size α then
    match ofWord? (α := α) (Bytes.toNat bytes) with
    | some v => .ok v
    | none => .error (.format (refusal α bytes))
  else .error (.format (refusal α bytes))

/-- `n` values in a row; `acc` holds those before, last first. -/
def takeMany (α : Type) [FixedWidth α] (acc : List α) : (n : Nat) → Bytes → Except Fault (List α)
  | 0, _ => .ok acc.reverse
  | n + 1, bytes =>
    let (first, rest) := bytes.splitAt (size α)
    match take α first with
    | .error fault => .error fault
    | .ok v => takeMany α (v :: acc) n rest

/-- The instance of a kind whose every word is a value. -/
@[reducible] def total {α : Type} (kind : String) (size : Nat) (toWord : α → Nat)
    (ofWord : Nat → α) : FixedWidth α where
  kind := kind
  size := size
  toWord := toWord
  ofWord? n := some (ofWord n)
  refusal bytes := .width kind size bytes.length

end FixedWidth

/-- An IEEE 754 binary32 value, as its bits. -/
structure Float32Bits where
  bits : UInt32
  deriving DecidableEq, Repr, Inhabited

/-- An IEEE 754 binary64 value, as its bits. -/
structure Float64Bits where
  bits : UInt64
  deriving DecidableEq, Repr, Inhabited

/-- A 128-bit identifier. -/
abbrev Uuid := BitVec 128

instance : FixedWidth Int8 := .total "i8" 1 (·.toUInt8.toNat) (UInt8.ofNat · |>.toInt8)
instance : FixedWidth UInt8 := .total "u8" 1 (·.toNat) UInt8.ofNat
instance : FixedWidth Int16 := .total "i16" 2 (·.toUInt16.toNat) (UInt16.ofNat · |>.toInt16)
instance : FixedWidth UInt16 := .total "u16" 2 (·.toNat) UInt16.ofNat
instance : FixedWidth Int32 := .total "i32" 4 (·.toUInt32.toNat) (UInt32.ofNat · |>.toInt32)
instance : FixedWidth UInt32 := .total "u32" 4 (·.toNat) UInt32.ofNat
instance : FixedWidth Int64 := .total "i64" 8 (·.toUInt64.toNat) (UInt64.ofNat · |>.toInt64)
instance : FixedWidth UInt64 := .total "u64" 8 (·.toNat) UInt64.ofNat
instance : FixedWidth Uuid := .total "u128" 16 (·.toNat) (BitVec.ofNat 128)
instance : FixedWidth Float32Bits := .total "f32" 4 (·.bits.toNat) (⟨UInt32.ofNat ·⟩)
instance : FixedWidth Float64Bits := .total "f64" 8 (·.bits.toNat) (⟨UInt64.ofNat ·⟩)

/-- A truth value is a byte 0 or 1 and nothing else. -/
instance : FixedWidth Bool where
  kind := "bool"
  size := 1
  toWord b := if b then 1 else 0
  ofWord? n := if n = 0 then some false else if n = 1 then some true else none
  refusal := .boolean

/-- A fixed-width type of integers. -/
class FixedInteger (α : Type) extends FixedWidth α where
  lower : Int
  upper : Int
  ofInt : Int → α
  toInt : α → Int

instance : FixedInteger Int8 := { lower := -2 ^ 7, upper := 2 ^ 7 - 1, ofInt := .ofInt, toInt := (·.toInt) }
instance : FixedInteger UInt8 := { lower := 0, upper := 2 ^ 8 - 1, ofInt := .ofInt, toInt := (·.toNat) }
instance : FixedInteger Int16 := { lower := -2 ^ 15, upper := 2 ^ 15 - 1, ofInt := .ofInt, toInt := (·.toInt) }
instance : FixedInteger UInt16 := { lower := 0, upper := 2 ^ 16 - 1, ofInt := .ofInt, toInt := (·.toNat) }
instance : FixedInteger Int32 := { lower := -2 ^ 31, upper := 2 ^ 31 - 1, ofInt := .ofInt, toInt := (·.toInt) }
instance : FixedInteger UInt32 := { lower := 0, upper := 2 ^ 32 - 1, ofInt := .ofInt, toInt := (·.toNat) }
instance : FixedInteger Int64 := { lower := -2 ^ 63, upper := 2 ^ 63 - 1, ofInt := .ofInt, toInt := (·.toInt) }
instance : FixedInteger UInt64 := { lower := 0, upper := 2 ^ 64 - 1, ofInt := .ofInt, toInt := (·.toNat) }

/-- The value of an integer type that equals `n`, or the type's bounds as a fault under the name
`kind`. -/
def narrowAs (kind : String) (α : Type) [FixedInteger α] (n : Int) : Except Fault α :=
  if FixedInteger.lower α ≤ n ∧ n ≤ FixedInteger.upper α then .ok (FixedInteger.ofInt n)
  else .error (.range ⟨kind, .number n, .number (FixedInteger.lower α),
    .number (FixedInteger.upper α)⟩)

def narrow (α : Type) [FixedInteger α] (n : Int) : Except Fault α :=
  narrowAs (FixedWidth.kind α) α n

/-- The form of an integer as a value of the type. -/
def FixedInteger.encode (α : Type) [FixedInteger α] (n : Int) : Except Fault Bytes :=
  (narrow α n).map FixedWidth.put

end MinecraftWire
