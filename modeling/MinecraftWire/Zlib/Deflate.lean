import MinecraftWire.Zlib.Block

/-! Deflating: bytes become tokens, tokens become blocks, and blocks become bits. Level 0 leaves the
bytes as they are; the levels from 1 to 9 look harder and harder for matches. -/

namespace MinecraftWire.Zlib

namespace Deflate

/-! ### Levels -/

/-- The effort of a level that looks at no more than `places` places. -/
def effort (isPatient : Bool) (places : Nat) : Effort :=
  ⟨(places + 2) / 3 * 3, (places / 4 + 2) / 3 * 3, isPatient⟩

/-- How a level looks for matches; level 1 does it the quick way. -/
def effort? : (level : Nat) → Option Effort
  | 0 => none
  | 1 => none
  | 2 => some (effort false 6)
  | 3 => some (effort false 32)
  | 4 => some (effort true 16)
  | 5 => some (effort true 32)
  | 6 => some (effort true 128)
  | 7 => some (effort true 256)
  | 8 => some (effort true 512)
  | _ => some (effort true 768)

def tokens (effort : Option Effort) (data : Array UInt8) : List Token :=
  match effort with
  | some e => e.tokens data
  | none => Quick.tokens data

/-! ### Blocks -/

/-- The size of a block that is being filled. -/
structure Fill where
  tokens : Nat
  /-- A literal takes up one unit, a copy three. -/
  units : Nat
  bytes : Nat

namespace Fill

def empty : Fill := ⟨0, 0, 0⟩

def add (f : Fill) : Token → Fill
  | .literal _ => ⟨f.tokens + 1, f.units + 1, f.bytes + 1⟩
  | .copy length _ => ⟨f.tokens + 1, f.units + 3, f.bytes + length⟩

/-- The room that a block takes up, with one unit for every eight tokens. -/
def room (f : Fill) : Nat :=
  1 + f.units + f.tokens / 8

/-- A block is full when no room is left, or, if `sparing`, when its bytes are many and have hardly got
fewer. -/
def isFull (sparing : Bool) (f : Fill) : Bool :=
  65528 < f.room || (sparing && 31744 < f.bytes && f.bytes ≤ f.room * 115 / 128)

end Fill

/-- Cut tokens into blocks, the last of which may be empty. Every block has its number of bytes. -/
def split (sparing : Bool) (fill : Fill) (acc : List Token) :
    List Token → List (List Token × Nat)
  | [] => [(acc.reverse, fill.bytes)]
  | token :: rest =>
    let fill := fill.add token
    if fill.isFull sparing then
      ((token :: acc).reverse, fill.bytes) :: split sparing .empty [] rest
    else split sparing fill (token :: acc) rest

/-- Blocks one after the other, behind `offset` bits, the last one marked. -/
def blocksBits (offset : Nat) (data : Bytes) : List (List Token × Nat) → List Bool
  | [] => []
  | (tokens, n) :: rest =>
    let bits := rest.isEmpty :: Block.bits (offset + 1) tokens (data.take n)
    bits ++ blocksBits (offset + bits.length) (data.drop n) rest

/-! ### Stored blocks -/

/-- The most bytes that level 0 puts into a block. -/
def maxStored : Nat := 31745

def storedBlock (last : Bool) (data : Bytes) : Bytes :=
  (if last then 1 else 0) :: (Bytes.ofNat 2 data.length).reverse ++
    (Bytes.ofNat 2 (65535 - data.length)).reverse ++ data

/-- Full blocks, and a last one that is not full. -/
def storedBlocks (data : Bytes) : Bytes :=
  if data.length < maxStored then storedBlock true data
  else storedBlock false (data.take maxStored) ++ storedBlocks (data.drop maxStored)
termination_by data.length
decreasing_by
  rw [List.length_drop]
  unfold maxStored at *
  omega

/-- The second byte of a stream, which tells roughly how hard the deflater tried. -/
def headerFlags (level : Nat) : UInt8 :=
  if level < 2 then 0x01 else if level < 6 then 0x5E else if level = 6 then 0x9C else 0xDA

end Deflate

/-- A zlib stream for the given bytes. Levels above 9 are like 9. -/
def deflate (level : Nat) (data : Bytes) : Bytes :=
  0x78 :: Deflate.headerFlags level ::
    (if level = 0 then Deflate.storedBlocks data
      else
        let effort := Deflate.effort? level
        pack (Deflate.blocksBits 0 data
          (Deflate.split effort.isSome .empty [] (Deflate.tokens effort data.toArray)))) ++
    Adler32.checksum data

end MinecraftWire.Zlib
