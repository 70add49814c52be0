import MinecraftWire.Text.Field

/-! Byte buffers with a read cursor. Writing appends, reading moves the cursor, and bytes that were
read stay until they are discarded, so that a reader can go back. -/

namespace MinecraftWire

structure Buffer where
  data : Bytes
  position : Nat
  position_le : position ≤ data.length

namespace Buffer

/-- The given bytes, all unread. -/
def ofBytes (bytes : Bytes) : Buffer :=
  ⟨bytes, 0, Nat.zero_le _⟩

def empty : Buffer :=
  ofBytes []

def consumed (b : Buffer) : Bytes :=
  b.data.take b.position

def unread (b : Buffer) : Bytes :=
  b.data.drop b.position

def length (b : Buffer) : Nat :=
  b.data.length

def remaining (b : Buffer) : Nat :=
  b.data.length - b.position

def isEmpty (b : Buffer) : Bool :=
  b.data.isEmpty

def hasRemaining (b : Buffer) : Bool :=
  b.position < b.data.length

def append (bytes : Bytes) (b : Buffer) : Buffer :=
  ⟨b.data ++ bytes, b.position, by have := b.position_le; simp; omega⟩

def push (byte : UInt8) (b : Buffer) : Buffer :=
  b.append [byte]

/-- Move the cursor past everything stored. -/
def toEnd (b : Buffer) : Buffer :=
  ⟨b.data, b.data.length, Nat.le_refl _⟩

/-- Read exactly `n` bytes. If fewer are left the cursor goes to the end. -/
def readExact (n : Nat) (b : Buffer) : Except Fault Bytes × Buffer :=
  if h : n ≤ b.remaining then
    (.ok (b.unread.take n),
      ⟨b.data, b.position + n, by have := b.position_le; unfold remaining at h; omega⟩)
  else (.error (.unexpectedEnd n b.unread), b.toEnd)

def readByte (b : Buffer) : Except Fault UInt8 × Buffer :=
  match b.readExact 1 with
  | (.ok bytes, b') => (.ok (bytes.headD 0), b')
  | (.error fault, b') => (.error fault, b')

def takeRemaining (b : Buffer) : Bytes × Buffer :=
  (b.unread, b.toEnd)

/-- Put the cursor at `position`, if so many bytes are stored. -/
def rewind (position : Nat) (b : Buffer) : Except Fault Unit × Buffer :=
  if h : position ≤ b.data.length then (.ok (), ⟨b.data, position, h⟩)
  else (.error (.format (.rewind position b.data.length)), b)

/-- Forget the bytes before the cursor. -/
def discardConsumed (b : Buffer) : Buffer :=
  ofBytes b.unread

def clear (_ : Buffer) : Buffer :=
  empty

/-! ### As a channel -/

/-- Move the cursor past `n` bytes, or to the end if fewer are left. -/
def skip (n : Nat) (b : Buffer) : Buffer :=
  ⟨b.data, b.position + min n b.remaining, by have := b.position_le; unfold remaining; omega⟩

/-- One read call for at most `room` bytes. Nothing is handed out at the end. -/
def read (room : Nat) (b : Buffer) : Bytes × Buffer :=
  (b.unread.take room, b.skip room)

/-- Call until `n` bytes have come or none is handed out. The caller chooses how many bytes it has
room for in each call, less one. -/
def collect (room : Nat → Nat) (calls n : Nat) (b : Buffer) : Bytes × Buffer :=
  if n = 0 then ([], b)
  else
    match b.read (min n (room calls + 1)) with
    | ([], b') => ([], b')
    | (byte :: got, b') =>
      let (more, b'') := b'.collect room (calls + 1) (n - (got.length + 1))
      (byte :: got ++ more, b'')
termination_by n

/-- Read exactly `n` bytes by read calls. -/
def readFull (room : Nat → Nat) (n : Nat) (b : Buffer) : Except Fault Bytes × Buffer :=
  match b.collect room 0 n with
  | (bytes, b') =>
    if bytes.length < n then (.error (.unexpectedEnd n bytes), b') else (.ok bytes, b')

/-- Use the buffer as a source: the cursor stops where the reader stopped. -/
def readWith {α : Type} (r : Reader α) (b : Buffer) : Except Fault α × Buffer :=
  match r.run b.unread with
  | (outcome, left) => (outcome, ⟨b.data, b.data.length - left.length, Nat.sub_le _ _⟩)

/-- Use the buffer as a sink: a form is appended up to its first piece that cannot be written. -/
def emit (pieces : Pieces) (b : Buffer) : Except Fault Unit × Buffer :=
  match pieces.assemble with
  | (bytes, none) => (.ok (), b.append bytes)
  | (bytes, some fault) => (.error fault, b.append bytes)

end Buffer

end MinecraftWire
