import MinecraftWire.Bytes

/-! Integers in groups of seven bits, lowest group first; the high bit of a byte says that another
group follows. A number of `bits` bits is read as unsigned, so a negative one takes the greatest
length. -/

namespace MinecraftWire

namespace VarInt

/-- Why a byte string is no number of the wanted width. -/
inductive Fault where
  /-- A group has bits above the width. -/
  | overflow (bits group : Nat)
  /-- The last byte the width allows announces another. -/
  | overlong (bits : Nat)
  deriving DecidableEq, Repr

/-- The bytes that `bits` payload bits and one sign bit take in groups of seven. -/
def maxLength (bits : Nat) : Nat :=
  (bits + 7) / 7

/-- The shortest encoding of an unsigned number. -/
def ofNat (n : Nat) : Bytes :=
  if n < 128 then [UInt8.ofNat n] else UInt8.ofNat (n % 128 + 128) :: ofNat (n / 128)
termination_by n

/-- The number of groups that hold the significant bits, at least one. -/
def natLength (n : Nat) : Nat :=
  if n = 0 then 1 else (n.log2 + 7) / 7

/-- A number read so far: finished, or waiting for its next group. -/
inductive Progress where
  | done (value : Nat)
  | more (value : Nat)
  deriving DecidableEq, Repr

/-- Take one byte into a number of which `seen` bytes have been read. -/
def accept (bits seen value : Nat) (b : UInt8) : Except Fault Progress :=
  let group := b.toNat % 128
  let shift := 7 * seen
  if bits < shift + 7 ∧ group >>> (bits - shift) ≠ 0 then
    .error (.overflow bits group)
  else if b.toNat < 128 then
    .ok (.done (value + group <<< shift))
  else
    .ok (.more (value + group <<< shift))

/-- Read groups from the front of a byte string, at most `left` more of them. -/
def peekFrom (bits : Nat) : (left seen value : Nat) → Bytes → Except Fault (Option (Nat × Nat))
  | 0, _, _, _ => .error (.overlong bits)
  | _ + 1, _, _, [] => .ok none
  | left + 1, seen, value, b :: rest =>
    match accept bits seen value b with
    | .error f => .error f
    | .ok (.done n) => .ok (some (n, seen + 1))
    | .ok (.more n) => peekFrom bits left (seen + 1) n rest

/-- The number at the front of a byte string and its length; `none` when the bytes end inside it. -/
def peekNat (bits : Nat) (bytes : Bytes) : Except Fault (Option (Nat × Nat)) :=
  peekFrom bits (maxLength bits) 0 0 bytes

def int32OfNat (n : Nat) : Int32 :=
  (UInt32.ofNat n).toInt32

def int64OfNat (n : Nat) : Int64 :=
  (UInt64.ofNat n).toInt64

def encode (v : Int32) : Bytes :=
  ofNat v.toUInt32.toNat

def length (v : Int32) : Nat :=
  natLength v.toUInt32.toNat

def peek (bytes : Bytes) : Except Fault (Option (Int32 × Nat)) :=
  (peekNat 32 bytes).map (·.map fun (n, k) => (int32OfNat n, k))

/-- A length as it is written: the low 32 bits. -/
def ofLength (n : Nat) : Bytes :=
  encode (Int32.ofNat n)

end VarInt

namespace VarLong

def encode (v : Int64) : Bytes :=
  VarInt.ofNat v.toUInt64.toNat

def length (v : Int64) : Nat :=
  VarInt.natLength v.toUInt64.toNat

end VarLong

end MinecraftWire
