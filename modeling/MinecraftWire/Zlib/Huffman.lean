import MinecraftWire.Zlib.Bits

/-! Prefix codes as binary trees. A canonical code is given by the lengths of its code words alone:
shorter words come first, and among words of one length those of smaller symbols. -/

namespace MinecraftWire.Zlib

inductive Huffman where
  /-- Words that begin here stand for nothing. -/
  | unused
  | leaf (symbol : Nat)
  | node (zero one : Huffman)
  deriving Inhabited

namespace Huffman

/-- Read the rest of a word. -/
def walk : Huffman → BitSource → Except Stop (Nat × BitSource)
  | unused, s => .error s.corrupt
  | leaf symbol, s => .ok (symbol, s)
  | node zero one, s =>
    match s.next with
    | .error stop => .error stop
    | .ok (bit, s) => if bit then one.walk s else zero.walk s

def child (bit : Bool) : Huffman → Huffman
  | node zero one => if bit then one else zero
  | _ => unused

/-- Read one word, which has at least one bit. -/
def decode (t : Huffman) (s : BitSource) : Except Stop (Nat × BitSource) :=
  match s.next with
  | .error stop => .error stop
  | .ok (bit, s) => (t.child bit).walk s

theorem size_of_walk {t : Huffman} {symbol : Nat} {s s' : BitSource}
    (h : t.walk s = .ok (symbol, s')) : s'.size ≤ s.size := by
  induction t generalizing s with
  | unused => simp [walk] at h
  | leaf symbol => simp only [walk, Except.ok.injEq, Prod.mk.injEq] at h; simp [h.2]
  | node zero one ihz iho =>
    simp only [walk] at h
    split at h
    · simp at h
    · rename_i hn
      have := BitSource.size_of_next hn
      split at h
      · have := iho h; omega
      · have := ihz h; omega

theorem size_of_decode {t : Huffman} {symbol : Nat} {s s' : BitSource}
    (h : t.decode s = .ok (symbol, s')) : s'.size < s.size := by
  unfold decode at h
  split at h
  · simp at h
  · rename_i hn
    have := BitSource.size_of_next hn
    have := size_of_walk h
    omega

/-- Every symbol with its word. -/
def words : Huffman → List (Nat × List Bool)
  | unused => []
  | leaf symbol => [(symbol, [])]
  | node zero one =>
    zero.words.map (fun w => (w.1, false :: w.2)) ++ one.words.map fun w => (w.1, true :: w.2)

/-- Whether every bit string has a word as its beginning. -/
def isComplete : Huffman → Bool
  | unused => false
  | leaf _ => true
  | node zero one => zero.isComplete && one.isComplete

/-- The symbols that have a word, each behind the word's length, in canonical order. -/
def canonicalOrder (maxLength : Nat) (lengths : List Nat) : List (Nat × Nat) :=
  (List.range maxLength).flatMap fun n => lengths.zipIdx.filter (·.1 == n + 1)

/-- Build the tree below `depth` from symbols in canonical order, and tell which are left over. -/
def build : (height depth : Nat) → List (Nat × Nat) → Huffman × List (Nat × Nat)
  | _, _, [] => (unused, [])
  | height, depth, (length, symbol) :: rest =>
    if length = depth then (leaf symbol, rest)
    else
      match height with
      | 0 => (unused, (length, symbol) :: rest)
      | height + 1 =>
        let (zero, rest) := build height (depth + 1) ((length, symbol) :: rest)
        let (one, rest) := build height (depth + 1) rest
        (node zero one, rest)

/-- The greatest length of a word. -/
def maxLength : Nat := 15

/-- Whether there is no word at all, or just one of a single bit. -/
def isSparse : Huffman → Bool
  | unused => true
  | node (leaf _) unused => true
  | _ => false

/-- The canonical code with words of the given lengths, zero standing for no word. Lengths that leave
bit strings without a meaning are refused; only where `sparse` is set may there be no word, or a
single bit as the only one. -/
def ofLengths? (sparse : Bool) (lengths : List Nat) : Option Huffman :=
  match build maxLength 0 (canonicalOrder maxLength lengths) with
  | (t, []) => if t.isComplete || (sparse && t.isSparse) then some t else none
  | (_, _ :: _) => none

/-- The words of the symbols below `count`, by symbol. -/
def wordTable (count : Nat) (t : Huffman) : Array (List Bool) :=
  let words := t.words
  (Array.range count).map fun symbol => ((words.find? (·.1 == symbol)).map (·.2)).getD []

end Huffman

end MinecraftWire.Zlib
