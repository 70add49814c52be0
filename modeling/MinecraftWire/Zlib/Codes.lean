import MinecraftWire.Zlib.Huffman

/-! The fixed parts of the deflate format: how lengths and distances are split into a symbol and
extra bits, and the two codes that need no description in the stream. -/

namespace MinecraftWire.Zlib

/-- A range of numbers that share a symbol: its start, and the extra bits that select within it. -/
structure Slot where
  base : Nat
  extra : Nat
  deriving DecidableEq, Repr

/-- The slots of match lengths; the first has symbol 257. -/
def lengthSlots : List Slot :=
  [⟨3, 0⟩, ⟨4, 0⟩, ⟨5, 0⟩, ⟨6, 0⟩, ⟨7, 0⟩, ⟨8, 0⟩, ⟨9, 0⟩, ⟨10, 0⟩, ⟨11, 1⟩, ⟨13, 1⟩, ⟨15, 1⟩,
    ⟨17, 1⟩, ⟨19, 2⟩, ⟨23, 2⟩, ⟨27, 2⟩, ⟨31, 2⟩, ⟨35, 3⟩, ⟨43, 3⟩, ⟨51, 3⟩, ⟨59, 3⟩, ⟨67, 4⟩,
    ⟨83, 4⟩, ⟨99, 4⟩, ⟨115, 4⟩, ⟨131, 5⟩, ⟨163, 5⟩, ⟨195, 5⟩, ⟨227, 5⟩, ⟨258, 0⟩]

/-- The slots of match distances; the first has symbol 0. -/
def distanceSlots : List Slot :=
  [⟨1, 0⟩, ⟨2, 0⟩, ⟨3, 0⟩, ⟨4, 0⟩, ⟨5, 1⟩, ⟨7, 1⟩, ⟨9, 2⟩, ⟨13, 2⟩, ⟨17, 3⟩, ⟨25, 3⟩, ⟨33, 4⟩,
    ⟨49, 4⟩, ⟨65, 5⟩, ⟨97, 5⟩, ⟨129, 6⟩, ⟨193, 6⟩, ⟨257, 7⟩, ⟨385, 7⟩, ⟨513, 8⟩, ⟨769, 8⟩,
    ⟨1025, 9⟩, ⟨1537, 9⟩, ⟨2049, 10⟩, ⟨3073, 10⟩, ⟨4097, 11⟩, ⟨6145, 11⟩, ⟨8193, 12⟩,
    ⟨12289, 12⟩, ⟨16385, 13⟩, ⟨24577, 13⟩]

/-- The symbol that ends a block. -/
def endOfBlock : Nat := 256

/-- The word lengths of the fixed code for literals and match lengths. -/
def fixedLiteralLengths : List Nat :=
  List.replicate 144 8 ++ List.replicate 112 9 ++ List.replicate 24 7 ++ List.replicate 8 8

/-- The fixed code for literals and match lengths. -/
def fixedLiterals : Huffman :=
  (Huffman.build Huffman.maxLength 0
    (Huffman.canonicalOrder Huffman.maxLength fixedLiteralLengths)).1

/-- The fixed code for match distances: five bits each. -/
def fixedDistances : Huffman :=
  (Huffman.build Huffman.maxLength 0
    (Huffman.canonicalOrder Huffman.maxLength (List.replicate 32 5))).1

/-- The order in which a block gives the word lengths of the code for word lengths. -/
def lengthCodeOrder : List Nat :=
  [16, 17, 18, 0, 8, 7, 9, 6, 10, 5, 11, 4, 12, 3, 13, 2, 14, 1, 15]

/-- How far back a match may reach. -/
def windowSize : Nat := 32768

end MinecraftWire.Zlib
