/-! The thirteen kinds of NBT tags and their type bytes. -/

namespace MinecraftWire.Nbt

inductive TagKind where
  /-- Ends a compound, and is the element kind of an empty list. -/
  | endMark
  | byte | short | int | long | float | double
  | byteArray | string | list | compound | intArray | longArray
  deriving DecidableEq, Repr, Inhabited

namespace TagKind

/-- Every kind, in the order of its type byte. -/
def all : List TagKind :=
  [endMark, byte, short, int, long, float, double, byteArray, string, list, compound, intArray,
    longArray]

def id : TagKind → UInt8
  | endMark => 0
  | byte => 1
  | short => 2
  | int => 3
  | long => 4
  | float => 5
  | double => 6
  | byteArray => 7
  | string => 8
  | list => 9
  | compound => 10
  | intArray => 11
  | longArray => 12

def ofId? (b : UInt8) : Option TagKind :=
  all[b.toNat]?

def name : TagKind → String
  | endMark => "TAG_End"
  | byte => "TAG_Byte"
  | short => "TAG_Short"
  | int => "TAG_Int"
  | long => "TAG_Long"
  | float => "TAG_Float"
  | double => "TAG_Double"
  | byteArray => "TAG_Byte_Array"
  | string => "TAG_String"
  | list => "TAG_List"
  | compound => "TAG_Compound"
  | intArray => "TAG_Int_Array"
  | longArray => "TAG_Long_Array"

def isInteger : TagKind → Bool
  | byte | short | int | long => true
  | _ => false

theorem ofId?_id (k : TagKind) : ofId? k.id = some k := by
  cases k <;> rfl

end TagKind

end MinecraftWire.Nbt
