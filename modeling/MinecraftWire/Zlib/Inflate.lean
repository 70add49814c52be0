import MinecraftWire.Zlib.Token

/-! Inflating a zlib stream. Whatever follows the checksum is left alone. -/

namespace MinecraftWire.Zlib

/-- A stream that could not be read on, and what it had given until then. -/
structure Halt where
  stop : Stop
  output : Array UInt8

namespace Inflate

/-- The tokens of a block, up to its end. -/
def tokens (literals distances : Huffman) (s : BitSource) (output : Array UInt8) :
    Except Halt (BitSource × Array UInt8) :=
  match h : s.token literals distances with
  | .error stop => .error ⟨stop, output⟩
  | .ok (none, s') => .ok (s', output)
  | .ok (some token, s') =>
    have := BitSource.size_of_token h
    tokens literals distances s' (token.expand output)
termination_by s.size

/-- A block of bytes as they are, behind their number and its complement. -/
def stored (s : BitSource) (output : Array UInt8) : Except Halt (BitSource × Array UInt8) :=
  match s.aligned with
  | l₀ :: l₁ :: c₀ :: c₁ :: rest =>
    let length := l₀.toNat + 256 * l₁.toNat
    if length + (c₀.toNat + 256 * c₁.toNat) = 65535 then
      let (bytes, rest) := rest.splitAt length
      let output := output ++ bytes
      if bytes.length < length then .error ⟨.truncated, output⟩ else .ok (.ofBytes rest, output)
    else .error ⟨.corrupt rest.length, output⟩
  | _ => .error ⟨.truncated, output⟩

/-- What a symbol above 15 among word lengths repeats, how often at least, and how many bits say how
much more often: the last length, or zero. -/
def repetition (symbol : Nat) (acc : List Nat) : Option (Nat × Nat × Nat) :=
  if symbol = 16 then acc.head?.map (·, 3, 2)
  else if symbol = 17 then some (0, 3, 3)
  else some (0, 11, 7)

/-- Read `n` word lengths; `acc` holds those before, last first. -/
def wordLengths (code : Huffman) (n : Nat) (acc : List Nat) (s : BitSource) :
    Except Stop (List Nat × BitSource) :=
  if n = 0 then .ok (acc.reverse, s)
  else
    match h : code.decode s with
    | .error stop => .error stop
    | .ok (symbol, s₁) =>
      have := Huffman.size_of_decode h
      if symbol < 16 then wordLengths code (n - 1) (symbol :: acc) s₁
      else
        match repetition symbol acc with
        | none => .error s₁.corrupt
        | some (length, base, extra) =>
          match h : s₁.take extra with
          | .error stop => .error stop
          | .ok (more, s₂) =>
            have := BitSource.size_of_take h
            if n < base + more then .error s₂.corrupt
            else wordLengths code (n - (base + more)) (List.replicate (base + more) length ++ acc) s₂
termination_by s.size

/-- The lengths of the words for word lengths, in the order of their symbols. -/
def codeLengths : (order : List Nat) → (n : Nat) → (acc : Array Nat) → BitSource →
    Except Stop (Array Nat × BitSource)
  | _, 0, acc, s => .ok (acc, s)
  | [], _ + 1, acc, s => .ok (acc, s)
  | symbol :: order, n + 1, acc, s =>
    match s.take 3 with
    | .error stop => .error stop
    | .ok (length, s) => codeLengths order n (acc.setIfInBounds symbol length) s

/-- The two codes that a block describes: for literals and match lengths, and for distances. -/
def blockCodes (s : BitSource) : Except Stop (Huffman × Huffman × BitSource) := do
  let (literals, s) ← s.take 5
  let (distances, s) ← s.take 5
  let (lengths, s) ← s.take 4
  let literals := literals + 257
  let distances := distances + 1
  if 286 < literals ∨ 30 < distances then .error s.corrupt
  else
    let (first, s) ← codeLengths lengthCodeOrder (lengths + 4) (Array.replicate 19 0) s
    let some code := Huffman.ofLengths? false first.toList | .error s.corrupt
    let (all, s) ← wordLengths code (literals + distances) [] s
    let some literalCode := Huffman.ofLengths? true (all.take literals) | .error s.corrupt
    let some distanceCode := Huffman.ofLengths? true (all.drop literals) | .error s.corrupt
    return (literalCode, distanceCode, s)

/-- One block after its heading. -/
def block (type : Nat) (s : BitSource) (output : Array UInt8) :
    Except Halt (BitSource × Array UInt8) :=
  if type = 0 then stored s output
  else if type = 1 then tokens fixedLiterals fixedDistances s output
  else if type = 2 then
    match blockCodes s with
    | .error stop => .error ⟨stop, output⟩
    | .ok (literals, distances, s) => tokens literals distances s output
  else .error ⟨s.corrupt, output⟩

/-! ### Blocks use up their input -/

theorem size_of_tokens {literals distances : Huffman} {s s' : BitSource}
    {output output' : Array UInt8}
    (h : tokens literals distances s output = .ok (s', output')) : s'.size ≤ s.size := by
  fun_induction tokens literals distances s output with
  | case1 => simp at h
  | case2 s output s₁ hs =>
    have := BitSource.size_of_token hs
    simp only [Except.ok.injEq, Prod.mk.injEq] at h
    rw [← h.1]; omega
  | case3 s output token s₁ hs hlt ih => have := ih h; omega

theorem size_of_aligned (s : BitSource) : 8 * s.aligned.length ≤ s.size := by
  unfold BitSource.aligned BitSource.size
  split
  · simp_all
  · have := s.offset.isLt
    simp only [List.length_tail]
    omega

theorem size_of_stored {s s' : BitSource} {output output' : Array UInt8}
    (h : stored s output = .ok (s', output')) : s'.size ≤ s.size := by
  have hs := size_of_aligned s
  unfold stored at h
  split at h
  · rename_i rest ha
    simp only [List.splitAt_eq] at h
    split at h
    · split at h
      · simp at h
      · simp only [Except.ok.injEq, Prod.mk.injEq] at h
        rw [ha] at hs
        rw [← h.1]
        simp only [BitSource.ofBytes, BitSource.size, List.length_drop, List.length_cons] at hs ⊢
        omega
    · simp at h
  · simp at h

theorem size_of_wordLengths {code : Huffman} {n : Nat} {acc lengths : List Nat} {s s' : BitSource}
    (h : wordLengths code n acc s = .ok (lengths, s')) : s'.size ≤ s.size := by
  fun_induction wordLengths code n acc s <;> simp_all <;> grind

theorem size_of_codeLengths {order : List Nat} {n : Nat} {acc lengths : Array Nat}
    {s s' : BitSource} (h : codeLengths order n acc s = .ok (lengths, s')) : s'.size ≤ s.size := by
  fun_induction codeLengths order n acc s with
  | case1 => simp_all
  | case2 => simp_all
  | case3 => simp at h
  | case4 acc s symbol order n length s₁ hs ih =>
    have := ih h
    have := BitSource.size_of_take hs
    omega

theorem bind_eq_ok {ε α β : Type} {x : Except ε α} {f : α → Except ε β} {b : β} :
    (x >>= f) = .ok b ↔ ∃ a, x = .ok a ∧ f a = .ok b := by
  cases x <;> simp [bind, Except.bind]

theorem size_of_blockCodes {literals distances : Huffman} {s s' : BitSource}
    (h : blockCodes s = .ok (literals, distances, s')) : s'.size ≤ s.size := by
  simp only [blockCodes, bind_eq_ok] at h
  obtain ⟨⟨_, s₁⟩, h₁, ⟨_, s₂⟩, h₂, ⟨_, s₃⟩, h₃, h⟩ := h
  split at h
  · simp at h
  · simp only [bind_eq_ok] at h
    obtain ⟨⟨_, s₄⟩, h₄, h⟩ := h
    split at h
    · simp only [bind_eq_ok] at h
      obtain ⟨⟨_, s₅⟩, h₅, h⟩ := h
      split at h
      · split at h
        · simp only [pure, Except.pure, Except.ok.injEq, Prod.mk.injEq] at h
          have := BitSource.size_of_take h₁
          have := BitSource.size_of_take h₂
          have := BitSource.size_of_take h₃
          have := size_of_codeLengths h₄
          have := size_of_wordLengths h₅
          rw [← h.2.2]
          simp only at *
          omega
        · simp at h
      · simp at h
    · simp at h

theorem size_of_block {type : Nat} {s s' : BitSource} {output output' : Array UInt8}
    (h : block type s output = .ok (s', output')) : s'.size ≤ s.size := by
  unfold block at h
  split at h
  · exact size_of_stored h
  · split at h
    · exact size_of_tokens h
    · split at h
      · split at h
        · simp at h
        · rename_i hc
          have := size_of_blockCodes hc
          have := size_of_tokens h
          omega
      · simp at h

/-- All blocks up to the one marked as the last. -/
def blocks (s : BitSource) (output : Array UInt8) : Except Halt (BitSource × Array UInt8) :=
  match h : s.take 3 with
  | .error stop => .error ⟨stop, output⟩
  | .ok (heading, s₁) =>
    match h' : block (heading / 2) s₁ output with
    | .error halt => .error halt
    | .ok (s₂, output) =>
      have := BitSource.size_of_take h
      have := size_of_block h'
      if heading % 2 = 1 then .ok (s₂, output) else blocks s₂ output
termination_by s.size

end Inflate

/-- The two bytes that head a stream: deflate with a window of at most 32 KiB, no preset dictionary,
and a check that makes them a multiple of 31. -/
def isHeader (method flags : UInt8) : Bool :=
  method.toNat % 16 = 8 && method.toNat / 16 ≤ 7 && (256 * method.toNat + flags.toNat) % 31 = 0 &&
    !flags.toNat.testBit 5

/-- What a zlib stream holds, and the bytes after it. -/
def inflate (bytes : Bytes) : Except Halt (Array UInt8 × Bytes) :=
  match bytes with
  | method :: flags :: rest =>
    if isHeader method flags then
      match Inflate.blocks (.ofBytes rest) #[] with
      | .error halt => .error halt
      | .ok (s, output) =>
        let (check, rest) := s.aligned.splitAt 4
        if check.length < 4 then .error ⟨.truncated, output⟩
        else if check = Adler32.checksum output.toList then .ok (output, rest)
        else .error ⟨.corrupt rest.length, output⟩
    else .error ⟨.corrupt rest.length, #[]⟩
  | _ => .error ⟨.truncated, #[]⟩

end MinecraftWire.Zlib
