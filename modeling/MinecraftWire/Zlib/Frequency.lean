import MinecraftWire.Zlib.Huffman

/-! Word lengths for symbols of given frequencies: frequent symbols get short words. -/

namespace MinecraftWire.Zlib.Frequency

/-! ### The best tree -/

/-- Insert a weighted tree among others in the order of their weights, behind its equals. -/
def insert (t : Nat × Huffman) : List (Nat × Huffman) → List (Nat × Huffman)
  | [] => [t]
  | u :: forest => if u.1 ≤ t.1 then u :: insert t forest else t :: u :: forest

theorem length_insert (t : Nat × Huffman) (forest : List (Nat × Huffman)) :
    (insert t forest).length = forest.length + 1 := by
  induction forest with
  | nil => rfl
  | cons u forest ih =>
    unfold insert
    split <;> simp [ih]

/-- Join the two lightest trees until there is one. -/
def join : List (Nat × Huffman) → Huffman
  | [] => .unused
  | [t] => t.2
  | t :: u :: forest => join (insert (t.1 + u.1, .node t.2 u.2) forest)
termination_by forest => forest.length
decreasing_by simp [length_insert]

/-! ### Bounded lengths -/

/-- How many words of each length a tree has; longer ones count as being of the greatest length. A tree
that is a leaf stands for a word of one bit. -/
def lengthCounts (maxLength : Nat) (t : Huffman) : Array Nat :=
  t.words.foldl
    (fun counts w => counts.modify (min maxLength (max 1 w.2.length)) (· + 1))
    (Array.replicate (maxLength + 1) 0)

/-- How many of the bit strings of the greatest length the words would take up. -/
def usage (maxLength : Nat) (counts : Array Nat) : Nat :=
  (List.range (maxLength + 1)).foldl (fun n k => n + counts.getD k 0 * 2 ^ (maxLength - k)) 0

/-- Free one bit string of the greatest length: a word of that length becomes the sibling of the longest
word that is shorter, and that word gets one bit longer. -/
def free (maxLength : Nat) (counts : Array Nat) : Array Nat :=
  let counts := counts.modify maxLength (· - 1)
  match (List.range maxLength).reverse.find? fun k => counts.getD k 0 ≠ 0 with
  | some k => (counts.modify k (· - 1)).modify (k + 1) (· + 2)
  | none => counts

def shorten (maxLength : Nat) : (excess : Nat) → Array Nat → Array Nat
  | 0, counts => counts
  | excess + 1, counts => shorten maxLength excess (free maxLength counts)

/-- The symbols that occur, the rare ones first. -/
def occurring (frequencies : Array Nat) : List (Nat × Nat) :=
  (frequencies.toList.zipIdx.filter (·.1 ≠ 0)).mergeSort fun a b => a.1 ≤ b.1

/-- The length of the word for every symbol, zero for those that do not occur. -/
def wordLengths (maxLength : Nat) (frequencies : Array Nat) : List Nat :=
  let symbols := occurring frequencies
  let counts := lengthCounts maxLength (join (symbols.map fun s => (s.1, .leaf s.2)))
  let counts := shorten maxLength (usage maxLength counts - 2 ^ maxLength) counts
  let lengths := (List.range (maxLength + 1)).flatMap fun k => List.replicate (counts.getD k 0) k
  ((symbols.reverse.zip lengths).foldl (fun acc s => acc.setIfInBounds s.1.2 s.2)
    (Array.replicate frequencies.size 0)).toList

end MinecraftWire.Zlib.Frequency
