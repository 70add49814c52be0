import MinecraftWire.FixedWidth

/-! UUIDs as text: hexadecimal digits in groups of 8, 4, 4, 4 and 12 with hyphens between them.
Reading ignores hyphens wherever they stand. -/

namespace MinecraftWire.UuidText

/-- The digits of a UUID, most significant first. -/
def digits (uuid : Uuid) : List Char :=
  (Hex.padded 32 uuid.toNat).toList

def format (uuid : Uuid) : String :=
  let ds := digits uuid
  String.ofList (ds.take 8 ++ '-' :: (ds.drop 8).take 4 ++ '-' :: (ds.drop 12).take 4 ++
    '-' :: (ds.drop 16).take 4 ++ '-' :: ds.drop 20)

/-- A number in base 16, with a plus sign before it or none. -/
def hex? : List Char → Option Nat
  | '+' :: cs => Hex.readFrom 0 cs
  | cs => Hex.readFrom 0 cs

/-- Without its hyphens the text takes 32 bytes and is a number in base 16. -/
def parse (text : String) : Except Fault Uuid :=
  let cs := text.toList.filter (· ≠ '-')
  if (cs.map Char.utf8Size).sum = 32 then
    match hex? cs with
    | some n => .ok (BitVec.ofNat 128 n)
    | none => .error (.format (.uuid text))
  else .error (.format (.uuid text))

end MinecraftWire.UuidText
