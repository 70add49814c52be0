import MinecraftWire.Bytes

/-! UTF-8, with the place and extent of the first malformed sequence. A fault covers the longest
part of a sequence that could still have become a character, and at least one byte. -/

namespace MinecraftWire.Utf8

inductive Fault where
  /-- The `length` bytes from `index` begin no character. -/
  | invalid (length index : Nat)
  /-- The input ends inside a character that begins at `index`. -/
  | incomplete (index : Nat)
  deriving DecidableEq, Repr

def Fault.message : Fault → String
  | .invalid length index =>
    "invalid utf-8 sequence of " ++ toString length ++ " bytes from index " ++ toString index
  | .incomplete index => "incomplete utf-8 byte sequence from index " ++ toString index

def encode (s : String) : Bytes :=
  s.toList.flatMap String.utf8EncodeChar

/-- The bounds of a byte inside a sequence. -/
abbrev Bounds := UInt8 × UInt8

def continuation : Bounds := (0x80, 0xBF)

/-- What a first byte says: the leading bits of the code point and the bounds of the bytes to come.
The tighter bounds after E0, ED, F0 and F4 leave out overlong forms, surrogates and numbers above
U+10FFFF. -/
def lead (b : UInt8) : Option (Nat × List Bounds) :=
  if b < 0x80 then some (b.toNat, [])
  else if b < 0xC2 then none
  else if b < 0xE0 then some (b.toNat - 0xC0, [continuation])
  else if b = 0xE0 then some (0, [(0xA0, 0xBF), continuation])
  else if b = 0xED then some (0xD, [(0x80, 0x9F), continuation])
  else if b < 0xF0 then some (b.toNat - 0xE0, [continuation, continuation])
  else if b = 0xF0 then some (0, [(0x90, 0xBF), continuation, continuation])
  else if b < 0xF4 then some (b.toNat - 0xF0, [continuation, continuation, continuation])
  else if b = 0xF4 then some (4, [(0x80, 0x8F), continuation, continuation])
  else none

/-- The outcome of reading one character. -/
inductive Head where
  | char (c : Char) (rest : Bytes)
  | invalid (length : Nat)
  | incomplete

/-- Read the bytes that follow a first byte; `seen` counts those read. -/
def tails (code seen : Nat) : List Bounds → Bytes → Head
  | [], rest => .char (Char.ofNat code) rest
  | _ :: _, [] => .incomplete
  | (low, high) :: bounds, b :: rest =>
    if low ≤ b ∧ b ≤ high then tails (64 * code + (b.toNat - 0x80)) (seen + 1) bounds rest
    else .invalid seen

def head (b : UInt8) (rest : Bytes) : Head :=
  match lead b with
  | none => .invalid 1
  | some (code, bounds) => tails code 1 bounds rest

theorem length_of_tails {code seen : Nat} {bounds : List Bounds} {bytes rest : Bytes} {c : Char}
    (h : tails code seen bounds bytes = .char c rest) :
    rest.length + bounds.length = bytes.length := by
  induction bounds generalizing code seen bytes with
  | nil => simp only [tails, Head.char.injEq] at h; simp [h.2]
  | cons bound bounds ih =>
    cases bytes with
    | nil => simp [tails] at h
    | cons b bytes =>
      simp only [tails] at h
      split at h
      · have := ih h; simp; omega
      · simp at h

theorem length_of_head {b : UInt8} {bytes rest : Bytes} {c : Char}
    (h : head b bytes = .char c rest) : rest.length ≤ bytes.length := by
  unfold head at h
  split at h
  · simp at h
  · have := length_of_tails h; omega

/-- Decode from `index` on; `acc` holds the characters before it, last first. -/
def decodeFrom (index : Nat) (acc : List Char) : Bytes → Except Fault (List Char)
  | [] => .ok acc.reverse
  | b :: bytes =>
    match h : head b bytes with
    | .invalid length => .error (.invalid length index)
    | .incomplete => .error (.incomplete index)
    | .char c rest =>
      have := length_of_head h
      decodeFrom (index + c.utf8Size) (c :: acc) rest
termination_by bytes => bytes.length

def decode (bytes : Bytes) : Except Fault String :=
  (decodeFrom 0 [] bytes).map String.ofList

end MinecraftWire.Utf8
