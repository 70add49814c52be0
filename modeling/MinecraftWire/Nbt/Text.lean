import MinecraftWire.Nbt.Tag
import MinecraftWire.Bytes

/-! The compact text of a tree: a letter for the kind before each value, floating-point values by their
bits, texts in double quotes, and no blanks. -/

namespace MinecraftWire.Nbt

namespace Text

def escaped (c : Char) : String :=
  match c with
  | '"' => "\\\""
  | '\\' => "\\\\"
  | '\x08' => "\\b"
  | '\x0c' => "\\f"
  | '\n' => "\\n"
  | '\r' => "\\r"
  | '\t' => "\\t"
  | c => if c.toNat < 0x20 then "\\u" ++ Hex.padded 4 c.toNat else c.toString

def quoted (s : String) : String :=
  "\"" ++ String.join (s.toList.map escaped) ++ "\""

def array (letter : String) (vs : List Int) : String :=
  letter ++ "[" ++ String.intercalate "," (vs.map toString) ++ "]"

end Text

open Text in
mutual

def Tag.text : Tag → String
  | .endMark => "E"
  | .byte v => "b:" ++ toString v.toInt
  | .short v => "s:" ++ toString v.toInt
  | .int v => "i:" ++ toString v.toInt
  | .long v => "l:" ++ toString v.toInt
  | .float v => "f:" ++ Hex.padded 8 v.bits.toNat
  | .double v => "d:" ++ Hex.padded 16 v.bits.toNat
  | .byteArray vs => array "B" (vs.map (·.toInt))
  | .string s => quoted s
  | .list kind items =>
    "L" ++ toString kind.id.toNat ++ "[" ++ String.intercalate "," (Tag.itemTexts items) ++ "]"
  | .compound entries => "\x7b" ++ String.intercalate "," (Tag.entryTexts entries) ++ "\x7d"
  | .intArray vs => array "I" (vs.map (·.toInt))
  | .longArray vs => array "J" (vs.map (·.toInt))
termination_by structural t => t

def Tag.itemTexts : List Tag → List String
  | [] => []
  | t :: rest => t.text :: Tag.itemTexts rest
termination_by structural ts => ts

def Tag.entryTexts : List (String × Tag) → List String
  | [] => []
  | (name, t) :: rest => (quoted name ++ "=" ++ t.text) :: Tag.entryTexts rest
termination_by structural es => es

end

end MinecraftWire.Nbt
