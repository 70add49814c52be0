import MinecraftWire.Zlib.Frequency
import MinecraftWire.Zlib.Parse

/-! Blocks of tokens as bits, with the fixed codes or with codes that the block itself describes. -/

namespace MinecraftWire.Zlib.Block

/-! ### Tokens -/

/-- The low `n` bits of a number, the low bit first. -/
def lowBits : Nat → Nat → List Bool
  | 0, _ => []
  | n + 1, k => k.testBit 0 :: lowBits n (k / 2)

/-- The index of the last slot that starts at `n` or before. -/
def slotIndex (slots : List Slot) (n : Nat) : Nat :=
  (slots.takeWhile (·.base ≤ n)).length - 1

/-- The bits that select `n` in its slot. -/
def extraBits (slots : List Slot) (n : Nat) : List Bool :=
  match slots[slotIndex slots n]? with
  | some slot => lowBits slot.extra (n - slot.base)
  | none => []

/-- The symbol of a length among literals and lengths. -/
def lengthSymbol (length : Nat) : Nat :=
  endOfBlock + 1 + slotIndex lengthSlots length

/-- How many symbols there are for literals, lengths and the end of a block, and for distances. -/
def literalCount : Nat := 286
def distanceCount : Nat := 30

/-- The words of the two codes, by symbol. -/
structure WordTables where
  literals : Array (List Bool)
  distances : Array (List Bool)

def WordTables.ofCodes (literals distances : Huffman) : WordTables :=
  ⟨literals.wordTable literalCount, distances.wordTable distanceCount⟩

def fixedTables : WordTables := .ofCodes fixedLiterals fixedDistances

def tokenBits (t : WordTables) : Token → List Bool
  | .literal byte => t.literals.getD byte.toNat []
  | .copy length distance =>
    t.literals.getD (lengthSymbol length) [] ++ extraBits lengthSlots length ++
      t.distances.getD (slotIndex distanceSlots distance) [] ++ extraBits distanceSlots distance

/-- Whether there are words for all symbols of a token. -/
def covers (t : WordTables) : Token → Bool
  | .literal byte => t.literals.getD byte.toNat [] != []
  | .copy length distance =>
    t.literals.getD (lengthSymbol length) [] != [] &&
      t.distances.getD (slotIndex distanceSlots distance) [] != []

/-- Whether there are words for tokens and for the end of their block. -/
def coversAll (t : WordTables) (tokens : List Token) : Bool :=
  tokens.all (covers t) && t.literals.getD endOfBlock [] != []

/-- Tokens and the end of their block. -/
def bodyBits (t : WordTables) (tokens : List Token) : List Bool :=
  tokens.flatMap (tokenBits t) ++ t.literals.getD endOfBlock []

/-! ### The fixed codes -/

def fixedBits (tokens : List Token) : List Bool :=
  lowBits 2 1 ++ bodyBits fixedTables tokens

/-! ### Codes of its own -/

def literalFrequencies (tokens : List Token) : Array Nat :=
  tokens.foldl
    (fun acc token =>
      acc.modify
        (match token with
        | .literal byte => byte.toNat
        | .copy length _ => lengthSymbol length) (· + 1))
    ((Array.replicate literalCount 0).setIfInBounds endOfBlock 1)

def distanceFrequencies (tokens : List Token) : Array Nat :=
  tokens.foldl
    (fun acc token =>
      match token with
      | .literal _ => acc
      | .copy _ distance => acc.modify (slotIndex distanceSlots distance) (· + 1))
    (Array.replicate distanceCount 0)

/-- Part of a list of word lengths: a length, or a symbol for repetition, and the bits behind it. -/
structure LengthToken where
  symbol : Nat
  extra : List Bool
  deriving DecidableEq, Repr

/-- How many zeros the longest repetition stands for, and how many other lengths. -/
def maxZeros : Nat := 138
def maxRepeats : Nat := 6

/-- `n` lengths of zero. -/
def zeroRun (n : Nat) : List LengthToken :=
  if maxZeros < n then ⟨18, lowBits 7 (maxZeros - 11)⟩ :: zeroRun (n - maxZeros)
  else if 11 ≤ n then [⟨18, lowBits 7 (n - 11)⟩]
  else if 3 ≤ n then [⟨17, lowBits 3 (n - 3)⟩]
  else List.replicate n ⟨0, []⟩
termination_by n
decreasing_by exact Nat.sub_lt (Nat.zero_lt_of_lt ‹_›) (by decide)

/-- `n` lengths that equal the one before. -/
def repeatRun (length n : Nat) : List LengthToken :=
  if maxRepeats < n then ⟨16, lowBits 2 (maxRepeats - 3)⟩ :: repeatRun length (n - maxRepeats)
  else if 3 ≤ n then [⟨16, lowBits 2 (n - 3)⟩]
  else List.replicate n ⟨length, []⟩
termination_by n
decreasing_by exact Nat.sub_lt (Nat.zero_lt_of_lt ‹_›) (by decide)

/-- Word lengths, run by run. -/
def lengthTokens (lengths : List Nat) : List LengthToken :=
  (lengths.splitBy (· == ·)).flatMap fun run =>
    match run with
    | [] => []
    | 0 :: rest => zeroRun (rest.length + 1)
    | length :: rest => ⟨length, []⟩ :: repeatRun length rest.length

def lengthFrequencies (tokens : List LengthToken) : Array Nat :=
  tokens.foldl (fun acc token => acc.modify token.symbol (· + 1)) (Array.replicate 19 0)

/-- Lengths without the zeros at their end, but at least `n` of them. -/
def trimmed (n : Nat) (lengths : List Nat) : List Nat :=
  lengths.take (max n (lengths.reverse.dropWhile (· = 0)).length)

/-- The greatest length of a word in the code for word lengths. -/
def maxLengthOfLengths : Nat := 7

/-- The description of the two codes with the given word lengths. -/
def descriptionBits (literals distances : List Nat) : Option (List Bool) := do
  let tokens := lengthTokens (literals ++ distances)
  let lengths := Frequency.wordLengths maxLengthOfLengths (lengthFrequencies tokens)
  let code ← Huffman.ofLengths? false lengths
  let words := code.wordTable 19
  let given := trimmed 4 (lengthCodeOrder.map fun symbol => lengths.getD symbol 0)
  guard (tokens.all fun token => words.getD token.symbol [] != [])
  return lowBits 5 (literals.length - 257) ++ lowBits 5 (distances.length - 1) ++
    lowBits 4 (given.length - 4) ++ given.flatMap (lowBits 3) ++
    tokens.flatMap fun token => words.getD token.symbol [] ++ token.extra

/-- A block with the codes that suit it best, if there are such. -/
def describedBits (tokens : List Token) : Option (List Bool) := do
  let literals := trimmed 257 (Frequency.wordLengths Huffman.maxLength (literalFrequencies tokens))
  let distances := trimmed 1 (Frequency.wordLengths Huffman.maxLength (distanceFrequencies tokens))
  let literalCode ← Huffman.ofLengths? true literals
  let distanceCode ← Huffman.ofLengths? true distances
  let tables := WordTables.ofCodes literalCode distanceCode
  guard (coversAll tables tokens)
  let description ← descriptionBits literals distances
  return lowBits 2 2 ++ description ++ bodyBits tables tokens

/-! ### Bytes as they are -/

/-- Bits up to the next full byte. -/
def padding (offset : Nat) : List Bool :=
  List.replicate ((8 - offset % 8) % 8) false

/-- A block of bytes as they are, behind `offset` bits. -/
def storedBits (offset : Nat) (bytes : Bytes) : List Bool :=
  lowBits 2 0 ++ padding (offset + 2) ++ lowBits 16 bytes.length ++
    lowBits 16 (65535 - bytes.length) ++ bytes.flatMap fun b => lowBits 8 b.toNat

/-! ### The choice -/

/-- Blocks of fewer bytes are not worth a description of their codes. -/
def minDescribed : Nat := 48

/-- Blocks of up to this many bytes are never stored. -/
def maxUnstored : Nat := 32

/-- A block of tokens for the given bytes, behind `offset` bits. -/
def bits (offset : Nat) (tokens : List Token) (bytes : Bytes) : List Bool :=
  let coded :=
    if bytes.length < minDescribed then fixedBits tokens
    else (describedBits tokens).getD (fixedBits tokens)
  if maxUnstored < bytes.length ∧ bytes.length ≤ windowSize ∧
      bytes.length ≤ (offset % 8 + coded.length) / 8 + 1 then
    storedBits offset bytes
  else coded

end MinecraftWire.Zlib.Block
