import MinecraftWire.Zlib.Token

/-! Stretches of bytes that have come before, and the search for long ones among the places that start
with the same three bytes. -/

namespace MinecraftWire.Zlib

/-- The shortest stretch worth a copy, and the longest that a copy can have. -/
def minCopy : Nat := 3
def maxCopy : Nat := 258

/-- How many bytes from `i` on equal those from `j` on, at most `limit`. -/
def commonLength (data : Array UInt8) (j i : Nat) : (limit : Nat) → Nat
  | 0 => 0
  | limit + 1 =>
    if h : j < data.size ∧ i < data.size then
      if getElem data j h.1 = getElem data i h.2 then commonLength data (j + 1) (i + 1) limit + 1 else 0
    else 0

/-- A stretch of bytes from `i` on that stands before, too. -/
structure Match (data : Array UInt8) (i : Nat) where
  length : Nat
  distance : Nat
  minCopy_le : minCopy ≤ length
  length_le : length ≤ commonLength data (i - distance) i maxCopy
  distance_pos : 0 < distance
  distance_le : distance ≤ i
  distance_le_windowSize : distance ≤ windowSize

namespace Match

variable {data : Array UInt8} {i : Nat}

theorem length_pos (m : Match data i) : 0 < m.length :=
  Nat.lt_of_lt_of_le (by decide) m.minCopy_le

def token (m : Match data i) : Token :=
  .copy m.length m.distance

/-- A match of the shortest length is not worth a long distance. -/
def isWorthwhile (m : Match data i) : Bool :=
  minCopy < m.length || m.distance < 8192

/-- The stretch that the places `j` and `i` have in common, cut at `limit` bytes. -/
def ofPlaces? (data : Array UInt8) (j i limit : Nat) : Option (Match data i) :=
  let length := min (commonLength data j i maxCopy) limit
  if h : j < i ∧ i - j ≤ windowSize ∧ minCopy ≤ length then
    some {
      length
      distance := i - j
      minCopy_le := h.2.2
      length_le := by rw [Nat.sub_sub_self (Nat.le_of_lt h.1)]; exact Nat.min_le_left _ _
      distance_pos := Nat.sub_pos_of_lt h.1
      distance_le := Nat.sub_le i j
      distance_le_windowSize := h.2.1 }
  else none

end Match

/-! ### Chains of places -/

def keyCount : Nat := 32768

/-- The three bytes at `i` as the key under which the place is remembered. -/
def chainKey (data : Array UInt8) (i : Nat) : Nat :=
  ((data.getD i 0).toNat <<< 10 ^^^ (data.getD (i + 1) 0).toNat <<< 5 ^^^
    (data.getD (i + 2) 0).toNat) % keyCount

/-- For every place the last place before it with the same key, zero if there is none. -/
def chains (data : Array UInt8) : Array Nat :=
  ((data.size - 2).fold
    (fun i _ (latest, links) =>
      let key := chainKey data i
      let previous := latest.getD key 0
      (latest.setIfInBounds key i, links.push previous))
    (Array.replicate keyCount 0, Array.emptyWithCapacity data.size)).2

/-- How many places are numbered apart; the first of each such range ends a chain. -/
def chainRange : Nat := 65536

/-- Whether the places `j` and `i` agree in the bytes where a stretch longer than `length` ends. -/
def endsAlike (data : Array UInt8) (j i length : Nat) : Bool :=
  data.getD (j + length) 0 == data.getD (i + length) 0 &&
    data.getD (j + length - 1) 0 == data.getD (i + length - 1) 0

/-- Follow the chain from the place `p` in search of a stretch longer than `length`, which `best` has if
there is one. Every place costs one from `budget`, and one that is compared in full as many as are left
over three. -/
def longestFrom (data : Array UInt8) (links : Array Nat) (i maxDistance limit : Nat) (budget p : Nat)
    (length : Nat) (best : Option (Match data i)) : Option (Match data i) :=
  if budget = 0 then best
  else
    let j := links.getD p 0
    if j % chainRange = 0 ∨ i - j > maxDistance then best
    else if endsAlike data j i length then
      let budget := (budget - 1) / 3 * 3
      match Match.ofPlaces? data j i limit with
      | some m =>
        if m.length ≤ length then longestFrom data links i maxDistance limit budget j length best
        else if m.length = limit then some m
        else longestFrom data links i maxDistance limit budget j m.length (some m)
      | none => longestFrom data links i maxDistance limit budget j length best
    else longestFrom data links i maxDistance limit (budget - 1) j length best
termination_by budget
decreasing_by all_goals omega

/-- How hard to look for matches. -/
structure Effort where
  /-- How many places are looked at, and how many once a match is long. -/
  places : Nat
  placesIfLong : Nat
  /-- Whether a match waits for a longer one at the next byte. -/
  isPatient : Bool
  deriving DecidableEq, Repr

/-- A match waits no more from this length on, and a match that waits is long from the other. -/
def longMatch : Nat := 128
def longWait : Nat := 32

/-- The longest match at `i` that the effort finds, if it is longer than `length`. Places that are
multiples of the window's size are no good. -/
def Effort.longest (e : Effort) (data : Array UInt8) (links : Array Nat) (i length : Nat) :
    Option (Match data i) :=
  let limit := min maxCopy (data.size - i)
  if limit ≤ length then none
  else
    let budget := if longWait ≤ length then e.placesIfLong else e.places
    (longestFrom data links i (min i (windowSize - limit)) limit budget i length none).filter
      fun m => m.isWorthwhile && (i - m.distance) % windowSize != 0

end MinecraftWire.Zlib
