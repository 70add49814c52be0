import MinecraftWire.Zlib.Codes

/-! The tokens between compressed bits and bytes: a byte for itself, or a stretch of bytes that has
come before. -/

namespace MinecraftWire.Zlib

inductive Token where
  | literal (byte : UInt8)
  | copy (length distance : Nat)
  deriving DecidableEq, Repr

namespace Token

/-- Repeat `length` bytes from `distance` back, among them those just written. What lies before the
first byte counts as zero. -/
def repeatBack (distance : Nat) : (length : Nat) → Array UInt8 → Array UInt8
  | 0, output => output
  | length + 1, output =>
    let byte := if distance ≤ output.size then output.getD (output.size - distance) 0 else 0
    repeatBack distance length (output.push byte)

/-- Append what a token stands for. -/
def expand (output : Array UInt8) : Token → Array UInt8
  | literal byte => output.push byte
  | copy length distance => repeatBack distance length output

end Token

namespace BitSource

/-- A length or distance, from its slot and the extra bits in the stream. -/
def slotValue (slots : List Slot) (index : Nat) (s : BitSource) : Except Stop (Nat × BitSource) :=
  match slots[index]? with
  | none => .error s.corrupt
  | some slot =>
    match s.take slot.extra with
    | .error stop => .error stop
    | .ok (n, s) => .ok (slot.base + n, s)

/-- A copy whose length has the symbol `index` among the length symbols. -/
def copyToken (distances : Huffman) (index : Nat) (s : BitSource) :
    Except Stop (Token × BitSource) :=
  match s.slotValue lengthSlots index with
  | .error stop => .error stop
  | .ok (length, s) =>
    match distances.decode s with
    | .error stop => .error stop
    | .ok (symbol, s) =>
      match s.slotValue distanceSlots symbol with
      | .error stop => .error stop
      | .ok (distance, s) => .ok (.copy length distance, s)

/-- The next token of a block; `none` at its end. -/
def token (literals distances : Huffman) (s : BitSource) :
    Except Stop (Option Token × BitSource) :=
  match literals.decode s with
  | .error stop => .error stop
  | .ok (symbol, s) =>
    if symbol < endOfBlock then .ok (some (.literal (UInt8.ofNat symbol)), s)
    else if symbol = endOfBlock then .ok (none, s)
    else
      match s.copyToken distances (symbol - (endOfBlock + 1)) with
      | .error stop => .error stop
      | .ok (token, s) => .ok (some token, s)

theorem size_of_slotValue {slots : List Slot} {index n : Nat} {s s' : BitSource}
    (h : s.slotValue slots index = .ok (n, s')) : s'.size ≤ s.size := by
  unfold slotValue at h
  split at h
  · simp at h
  · split at h
    · simp at h
    · rename_i ht
      simp only [Except.ok.injEq, Prod.mk.injEq] at h
      have := size_of_take ht
      rw [← h.2]; omega

theorem size_of_copyToken {distances : Huffman} {index : Nat} {token : Token} {s s' : BitSource}
    (h : s.copyToken distances index = .ok (token, s')) : s'.size ≤ s.size := by
  unfold copyToken at h
  split at h
  · simp at h
  · rename_i h₁
    split at h
    · simp at h
    · rename_i h₂
      split at h
      · simp at h
      · rename_i h₃
        simp only [Except.ok.injEq, Prod.mk.injEq] at h
        have := size_of_slotValue h₁
        have := Huffman.size_of_decode h₂
        have := size_of_slotValue h₃
        rw [← h.2]; omega

theorem size_of_token {literals distances : Huffman} {token : Option Token} {s s' : BitSource}
    (h : s.token literals distances = .ok (token, s')) : s'.size < s.size := by
  unfold BitSource.token at h
  split at h
  · simp at h
  · rename_i hd
    have := Huffman.size_of_decode hd
    split at h
    · simp only [Except.ok.injEq, Prod.mk.injEq] at h; rw [← h.2]; omega
    · split at h
      · simp only [Except.ok.injEq, Prod.mk.injEq] at h; rw [← h.2]; omega
      · split at h
        · simp at h
        · rename_i hc
          have := size_of_copyToken hc
          simp only [Except.ok.injEq, Prod.mk.injEq] at h; rw [← h.2]; omega

end BitSource

end MinecraftWire.Zlib
