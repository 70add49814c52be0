import MinecraftWire.Reader

/-! Texts, byte arrays and optional values as fields on the wire. A text is UTF-8 behind its length
in bytes; a Latin-1 text has one byte for each character and ends with a zero byte. -/

namespace MinecraftWire

namespace Text

/-- The most characters of a text whose field sets no limit of its own. -/
def maxCharacters : Nat := 32767

/-- The form of a text of at most `limit` characters. -/
def encode (limit : Nat) (s : String) : Except Fault Bytes :=
  if s.length ≤ limit then .ok (VarInt.ofLength s.utf8ByteSize ++ Utf8.encode s)
  else .error (.range ⟨"string", .characters s.length, .number 0, .number limit⟩)

/-- The length of a text, before any of its bytes are read: each character takes at most four. -/
def checkLength (limit : Nat) (length : Int32) : Except Fault Nat :=
  if length < 0 then .error (.format (.negativeLength "string" length.toInt))
  else if 4 * limit < length.toInt.toNat then
    .error (.format (.textBytes length.toInt.toNat (4 * limit)))
  else .ok length.toInt.toNat

def decode (limit : Nat) (bytes : Bytes) : Except Fault String :=
  match Utf8.decode bytes with
  | .error fault => .error (.format (.utf8 fault))
  | .ok s => if s.length ≤ limit then .ok s else .error (.format (.textCharacters s.length limit))

end Text

namespace Latin1

/-- Whether a character has a one-byte form: the zero byte is the end of a text. -/
def fits (c : Char) : Bool :=
  0 < c.toNat && c.toNat ≤ 0xFF

def encode (s : String) : Except Fault Bytes :=
  match s.toList.find? (!fits ·) with
  | some c =>
    .error (.range ⟨"single-byte character", .codePoint c.toNat, .codePoint 1, .codePoint 0xFF⟩)
  | none => .ok (s.toList.map (fun c => UInt8.ofNat c.toNat) ++ [0])

end Latin1

namespace Blob

/-- A byte array behind its length. -/
def encode (bytes : Bytes) : Except Fault Bytes :=
  (narrow Int32 bytes.length).map fun length => VarInt.encode length ++ bytes

end Blob

namespace Reader

def text (limit : Nat) : Reader String := do
  let length ← lift (Text.checkLength limit (← varInt))
  lift (Text.decode limit (← exactly length))

/-- Characters up to a zero byte; `acc` holds earlier ones, last first. -/
def latin1From (acc : List Char) (s : Source) : Except Fault String × Source :=
  match h : s.readFull 1 with
  | (.error fault, s') => (.error fault, s')
  | (.ok bytes, s') =>
    have := Source.length_of_readFull h
    let b := bytes.headD 0
    if b = 0 then (.ok (String.ofList acc.reverse), s')
    else latin1From (Char.ofNat b.toNat :: acc) s'
termination_by s.pending.length

def latin1 : Reader String :=
  latin1From []

def blob : Reader Bytes := do
  let length ← varInt
  if length < 0 then malformed (.negativeLength "byte array" length.toInt)
  else exactly length.toInt.toNat

end Reader

/-- The pieces of a composite form, in order. A piece that cannot be written stops the form there. -/
abbrev Pieces := List (Except Fault Bytes)

namespace Pieces

/-- What is written before the first piece that cannot be, and the fault of that piece. -/
def assemble : Pieces → Bytes × Option Fault
  | [] => ([], none)
  | .error fault :: _ => ([], some fault)
  | .ok bytes :: rest => (bytes ++ (assemble rest).1, (assemble rest).2)

/-- The whole form, if every piece can be written. -/
def bytes (pieces : Pieces) : Except Fault Bytes :=
  match assemble pieces with
  | (bytes, none) => .ok bytes
  | (_, some fault) => .error fault

/-- A presence flag and, if there is a value, its pieces. -/
def optional {α : Type} (form : α → Pieces) : Option α → Pieces
  | none => [.ok (FixedWidth.put false)]
  | some a => .ok (FixedWidth.put true) :: form a

end Pieces

namespace Sink

/-- Write a form piece by piece, up to the first that cannot be written. -/
def emit (pieces : Pieces) (s : Sink) : Except Fault Unit × Sink :=
  match pieces.assemble with
  | (bytes, fault) =>
    match s.write bytes, fault with
    | (.ok (), s'), some fault => (.error fault, s')
    | outcome, _ => outcome

end Sink

end MinecraftWire
