/-! Blank characters (Unicode property White_Space), and lines. -/

namespace MinecraftWire.Blank

/-- The ranges of the property. -/
def ranges : List (Nat × Nat) :=
  [(0x09, 0x0D), (0x20, 0x20), (0x85, 0x85), (0xA0, 0xA0), (0x1680, 0x1680), (0x2000, 0x200A),
    (0x2028, 0x2029), (0x202F, 0x202F), (0x205F, 0x205F), (0x3000, 0x3000)]

def isBlank (c : Char) : Bool :=
  ranges.any fun r => r.1 ≤ c.toNat && c.toNat ≤ r.2

/-- A text without the blanks at both ends. -/
def trim (cs : List Char) : List Char :=
  ((cs.dropWhile isBlank).reverse.dropWhile isBlank).reverse

/-- A line without the carriage return at its end. -/
def line (reversed : List Char) : List Char :=
  match reversed with
  | '\r' :: cs => cs.reverse
  | cs => cs.reverse

/-- The lines of a text; `done` holds the start of the first, last character first. -/
def linesFrom (done : List Char) : List Char → List (List Char)
  | [] => [line done]
  | '\n' :: cs => line done :: linesFrom [] cs
  | c :: cs => linesFrom (c :: done) cs

def lines (cs : List Char) : List (List Char) :=
  linesFrom [] cs

end MinecraftWire.Blank
