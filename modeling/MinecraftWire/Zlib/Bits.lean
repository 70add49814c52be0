import MinecraftWire.Bytes

/-! Bit strings inside byte strings, the low bit of a byte first, and the checksum of byte strings. -/

namespace MinecraftWire.Zlib

/-- Why a compressed stream cannot be read on. -/
inductive Stop where
  /-- The stream ends too early. -/
  | truncated
  /-- What stands before the last `left` bytes has no meaning. -/
  | corrupt (left : Nat)
  deriving DecidableEq, Repr

/-- A place in a byte string between two bits. -/
structure BitSource where
  bytes : Bytes
  /-- How many bits of the first byte have been read. -/
  offset : Fin 8
  deriving Repr

namespace BitSource

def ofBytes (bytes : Bytes) : BitSource := ⟨bytes, 0⟩

/-- The number of unread bits. -/
def size (s : BitSource) : Nat :=
  8 * s.bytes.length - s.offset

/-- What has been read has no meaning. -/
def corrupt (s : BitSource) : Stop :=
  .corrupt (s.size / 8)

def next (s : BitSource) : Except Stop (Bool × BitSource) :=
  match s.bytes with
  | [] => .error .truncated
  | b :: rest =>
    let bit := b.toNat.testBit s.offset
    if h : s.offset.val < 7 then .ok (bit, { s with offset := ⟨s.offset + 1, Nat.succ_lt_succ h⟩ })
    else .ok (bit, ⟨rest, 0⟩)

/-- A number of `n` bits, the low bit first. -/
def take : Nat → BitSource → Except Stop (Nat × BitSource)
  | 0, s => .ok (0, s)
  | n + 1, s =>
    match s.next with
    | .error stop => .error stop
    | .ok (bit, s) =>
      match take n s with
      | .error stop => .error stop
      | .ok (high, s) => .ok (2 * high + bit.toNat, s)

/-- The bytes after a partly read one. -/
def aligned (s : BitSource) : Bytes :=
  if s.offset = 0 then s.bytes else s.bytes.tail

theorem size_of_next {s s' : BitSource} {bit : Bool} (h : s.next = .ok (bit, s')) :
    s'.size + 1 = s.size := by
  unfold next at h
  split at h
  · simp at h
  · rename_i b rest hb
    simp only at h
    split at h <;> simp only [Except.ok.injEq, Prod.mk.injEq] at h <;>
      simp only [size, ← h.2, hb, List.length_cons] <;> omega

theorem size_of_take {n k : Nat} {s s' : BitSource} (h : take n s = .ok (k, s')) :
    s'.size + n = s.size := by
  induction n generalizing s k with
  | zero => simp only [take, Except.ok.injEq, Prod.mk.injEq] at h; simp [h.2]
  | succ n ih =>
    simp only [take] at h
    split at h
    · simp at h
    · rename_i hn
      split at h
      · simp at h
      · rename_i ht
        simp only [Except.ok.injEq, Prod.mk.injEq] at h
        rw [h.2] at ht
        have := ih ht
        have := size_of_next hn
        omega

end BitSource

/-- Fill bytes with bits, the low bit first, and the last byte with zeros. -/
def pack (bits : List Bool) : Bytes :=
  go [] 0 0 bits
where
  /-- `acc` holds the full bytes, last first, and `partialByte` the `count` bits after them. -/
  go (acc : Bytes) (partialByte count : Nat) : List Bool → Bytes
    | [] => (if count = 0 then acc else UInt8.ofNat partialByte :: acc).reverse
    | bit :: rest =>
      let byte := partialByte + bit.toNat * 2 ^ count
      if count < 7 then go acc byte (count + 1) rest
      else go (UInt8.ofNat byte :: acc) 0 0 rest

/-! ### The Adler-32 checksum -/

namespace Adler32

def modulus : Nat := 65521

/-- Go on from the sums `a` of the bytes and `b` of those sums. -/
def sums (a b : Nat) : Bytes → Nat × Nat
  | [] => (a, b)
  | byte :: rest =>
    let a := (a + byte.toNat) % modulus
    sums a ((b + a) % modulus) rest

/-- The checksum as the four bytes that end a stream. -/
def checksum (bytes : Bytes) : Bytes :=
  let (a, b) := sums 1 0 bytes
  Bytes.ofNat 4 (65536 * b + a)

end Adler32

end MinecraftWire.Zlib
