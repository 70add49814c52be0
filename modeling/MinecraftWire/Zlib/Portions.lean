import MinecraftWire.Zlib.Inflate

/-! How much of a broken stream comes out. A stream is taken in pieces and inflated into a window.
Whenever a piece is used up or the window is full, what has been inflated is handed over, in portions.
If a window fills up within the first portion of a step, the step goes on. What a step has inflated
when it meets a corrupt place is lost. -/

namespace MinecraftWire.Zlib

def pieceSize : Nat := 32768

def portionSize : Nat := 8192

/-- How many bytes the first `k` bytes of a stream give. -/
def inflatedSize (data : Bytes) (k : Nat) : Nat :=
  match inflate (data.take k) with
  | .ok (output, _) => output.size
  | .error halt => halt.output.size

/-- The number of bytes at which the window was full for the last time before `n` bytes. -/
def lastFull (n : Nat) : Nat :=
  (n - 1) / windowSize * windowSize

/-- How many bytes have been handed over when the pieces that end at the place `k` are used up. If
the last byte of these was all it took to get past a full window, the step ended there, and what is
pending belongs to the next piece; unless the window was full already when the last piece began. -/
def handedOver (data : Bytes) (k : Nat) : Nat :=
  if k = 0 then 0
  else
    let size := inflatedSize data k
    let full := lastFull size
    if full = 0 then size
    else if full < inflatedSize data (k - 1) then size
    else if handedOver data ((k - 1) / pieceSize * pieceSize) < full then full
    else size
termination_by k
decreasing_by
  have := Nat.div_mul_le_self (k - 1) pieceSize
  omega

/-- How many bytes come out of a stream that cannot be inflated. -/
def released (data : Bytes) (halt : Halt) : Nat :=
  match halt.stop with
  | .truncated => handedOver data data.length
  | .corrupt left =>
    let piece := (data.length - left - 1) / pieceSize
    let start := handedOver data (piece * pieceSize)
    let full := lastFull halt.output.size
    if full ≤ start then start
    else if start + portionSize ≤ full then full
    else if inflatedSize data (min ((piece + 1) * pieceSize) data.length - 1) ≤ full then full
    else start

end MinecraftWire.Zlib
