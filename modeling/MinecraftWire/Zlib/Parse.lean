import MinecraftWire.Zlib.Match

/-! Bytes as tokens. -/

namespace MinecraftWire.Zlib

/-! ### The thorough way -/

/-- The tokens for the bytes from `i` on; `acc` holds those before, last first. A match that waits is one
at the byte before, and there is no token yet for that byte. -/
def Effort.tokensFrom (e : Effort) (data : Array UInt8) (links : Array Nat) (i : Nat)
    (waiting : Option (Match data (i - 1))) (acc : List Token) : List Token :=
  match waiting with
  | none =>
    if i < data.size then
      match e.longest data links i (minCopy - 1) with
      | none => e.tokensFrom data links (i + 1) none (.literal (data.getD i 0) :: acc)
      | some m =>
        have : 3 ≤ m.length := m.minCopy_le
        if e.isPatient ∧ m.length < longMatch then e.tokensFrom data links (i + 1) (some m) acc
        else e.tokensFrom data links (i + m.length) none (m.token :: acc)
    else acc.reverse
  | some w =>
    if i < data.size then
      match e.longest data links i w.length with
      | none =>
        have : 3 ≤ w.length := w.minCopy_le
        e.tokensFrom data links (i - 1 + w.length) none (w.token :: acc)
      | some m =>
        have : 3 ≤ m.length := m.minCopy_le
        let acc := .literal (data.getD (i - 1) 0) :: acc
        if m.length < longMatch then e.tokensFrom data links (i + 1) (some m) acc
        else e.tokensFrom data links (i + m.length) none (m.token :: acc)
    else (w.token :: acc).reverse
termination_by data.size - i
decreasing_by all_goals omega

def Effort.tokens (e : Effort) (data : Array UInt8) : List Token :=
  e.tokensFrom data (chains data) 0 none []

/-! ### The quick way -/

namespace Quick

/-- Bytes are taken in stretches of this size, across whose ends no match goes. -/
def stretchSize : Nat := 4096

def keyCount : Nat := 4096

/-- The three bytes at `i` as the key under which only the latest place is remembered. -/
def key (data : Array UInt8) (i : Nat) : Nat :=
  let n := (data.getD i 0).toNat + (data.getD (i + 1) 0).toNat <<< 8 +
    (data.getD (i + 2) 0).toNat <<< 16
  (n ^^^ n >>> 17) % keyCount

/-- Where the stretch of `i` starts and where it ends. -/
def stretchStart (i : Nat) : Nat := i / stretchSize * stretchSize
def stretchEnd (data : Array UInt8) (i : Nat) : Nat := min (stretchStart i + stretchSize) data.size

/-- How far back a match at `i` may reach. Towards the start of a stretch the window lacks as many bytes
as the stretch has. -/
def maxDistance (data : Array UInt8) (i : Nat) : Nat :=
  min (stretchStart i) (windowSize - (stretchEnd data i - stretchStart i)) + (i - stretchStart i)

/-- Whether so few bytes of the stretch are left that they are not looked at. -/
def isNearEnd (data : Array UInt8) (i : Nat) : Bool :=
  stretchEnd data i < i + 4

/-- The match at `i` with the place remembered, which is known by the last bits of its number. -/
def match? (data : Array UInt8) (latest : Array Nat) (i : Nat) : Option (Match data i) :=
  let distance := (i + chainRange - latest.getD (key data i) 0 % chainRange) % chainRange
  if isNearEnd data i || maxDistance data i < distance then none
  else
    (Match.ofPlaces? data (i - distance) i (stretchEnd data i - i)).filter (·.isWorthwhile)

def remember (data : Array UInt8) (latest : Array Nat) (i : Nat) : Array Nat :=
  if isNearEnd data i then latest else latest.setIfInBounds (key data i) i

/-- The tokens for the bytes from `i` on; `acc` holds those before, last first. -/
def tokensFrom (data : Array UInt8) (latest : Array Nat) (i : Nat) (acc : List Token) :
    List Token :=
  if i < data.size then
    match match? data latest i with
    | some m => tokensFrom data (remember data latest i) (i + m.length) (m.token :: acc)
    | none => tokensFrom data (remember data latest i) (i + 1) (.literal (data.getD i 0) :: acc)
  else acc.reverse
termination_by data.size - i
decreasing_by
  · exact Nat.sub_lt_sub_left ‹_› (Nat.lt_add_of_pos_right m.length_pos)
  · exact Nat.sub_lt_sub_left ‹_› (Nat.lt_succ_self i)

def tokens (data : Array UInt8) : List Token :=
  tokensFrom data (Array.replicate keyCount 0) 0 []

end Quick

end MinecraftWire.Zlib
