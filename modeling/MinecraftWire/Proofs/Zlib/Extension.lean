import MinecraftWire.Proofs.Zlib.Block

/-! Bytes behind a compressed stream. A stream that can be inflated says itself where it ends: bytes
added behind it change nothing about what it holds and are left where they are. -/

namespace MinecraftWire.Zlib

namespace BitSource

/-- The same place with more bytes at the end of the byte string. -/
def append (s : BitSource) (ext : Bytes) : BitSource :=
  { s with bytes := s.bytes ++ ext }

/-- What `read` finds does not depend on bytes at the end that it did not come to. -/
def Steady {α : Type} (read : BitSource → Except Stop (α × BitSource)) : Prop :=
  ∀ ⦃s a s'⦄, read s = .ok (a, s') → ∀ ext, read (s.append ext) = .ok (a, s'.append ext)

/-- The next byte boundary stays where it is, if there are bytes behind it. -/
theorem aligned_append {s : BitSource} (h : s.aligned ≠ []) (ext : Bytes) :
    (s.append ext).aligned = s.aligned ++ ext := by
  unfold aligned append at *
  dsimp only
  split
  · rfl
  · rename_i hoffset
    rw [if_neg hoffset] at h
    cases hbytes : s.bytes with
    | nil => simp [hbytes] at h
    | cons b bytes => rfl

/-! ### Bits -/

theorem steady_next : Steady next := by
  rintro ⟨bytes, offset⟩ bit s' h ext
  cases bytes with
  | nil => simp [next] at h
  | cons b bytes =>
    by_cases hlast : offset.val < 7
    · simp only [next, hlast, dite_true] at h
      obtain ⟨rfl, rfl⟩ := Prod.mk.inj (Except.ok.inj h)
      simp [next, append, hlast]
    · simp only [next, hlast, dite_false] at h
      obtain ⟨rfl, rfl⟩ := Prod.mk.inj (Except.ok.inj h)
      simp [next, append, hlast]

theorem steady_take (n : Nat) : Steady (take n) := by
  induction n with
  | zero =>
    intro s k s' h ext
    obtain ⟨rfl, rfl⟩ := Prod.mk.inj (Except.ok.inj h)
    rfl
  | succ n ih =>
    intro s k s' h ext
    rw [take] at h ⊢
    split at h
    · simp at h
    rename_i hnext
    split at h
    · simp at h
    rename_i htake
    obtain ⟨rfl, rfl⟩ := Prod.mk.inj (Except.ok.inj h)
    simp only [steady_next hnext ext, ih htake ext]

end BitSource

/-! ### Symbols and tokens -/

open BitSource

theorem Huffman.steady_walk (t : Huffman) : Steady t.walk := by
  induction t with
  | unused =>
    intro s symbol s' h
    simp [walk] at h
  | leaf symbol =>
    intro s symbol' s' h ext
    obtain ⟨rfl, rfl⟩ := Prod.mk.inj (Except.ok.inj h)
    rfl
  | node zero one ihzero ihone =>
    intro s symbol s' h ext
    rw [walk] at h ⊢
    split at h
    · simp at h
    rename_i bit s₁ hnext
    rw [steady_next hnext ext]
    cases bit with
    | false => exact ihzero h ext
    | true => exact ihone h ext

theorem Huffman.steady_decode (t : Huffman) : Steady t.decode := by
  intro s symbol s' h ext
  unfold decode at h ⊢
  split at h
  · simp at h
  rename_i hnext
  rw [steady_next hnext ext]
  exact (t.child _).steady_walk h ext

namespace BitSource

theorem steady_slotValue (slots : List Slot) (index : Nat) : Steady (slotValue slots index) := by
  intro s n s' h ext
  unfold slotValue at h ⊢
  split at h
  · simp at h
  split at h
  · simp at h
  rename_i htake
  obtain ⟨rfl, rfl⟩ := Prod.mk.inj (Except.ok.inj h)
  simp only [steady_take _ htake ext]

theorem steady_copyToken (distances : Huffman) (index : Nat) :
    Steady (copyToken distances index) := by
  intro s token s' h ext
  unfold copyToken at h ⊢
  split at h
  · simp at h
  rename_i hlength
  split at h
  · simp at h
  rename_i hsymbol
  split at h
  · simp at h
  rename_i hdistance
  obtain ⟨rfl, rfl⟩ := Prod.mk.inj (Except.ok.inj h)
  simp only [steady_slotValue _ _ hlength ext, distances.steady_decode hsymbol ext,
    steady_slotValue _ _ hdistance ext]

theorem steady_token (literals distances : Huffman) : Steady (token literals distances) := by
  intro s found s' h ext
  unfold token at h ⊢
  split at h
  · simp at h
  rename_i symbol s₁ hsymbol
  rw [literals.steady_decode hsymbol ext]
  dsimp only
  by_cases hliteral : symbol < endOfBlock
  · rw [if_pos hliteral] at h ⊢
    obtain ⟨rfl, rfl⟩ := Prod.mk.inj (Except.ok.inj h)
    rfl
  rw [if_neg hliteral] at h ⊢
  by_cases hend : symbol = endOfBlock
  · rw [if_pos hend] at h ⊢
    obtain ⟨rfl, rfl⟩ := Prod.mk.inj (Except.ok.inj h)
    rfl
  rw [if_neg hend] at h ⊢
  split at h
  · simp at h
  rename_i hcopy
  obtain ⟨rfl, rfl⟩ := Prod.mk.inj (Except.ok.inj h)
  rw [steady_copyToken _ _ hcopy ext]

end BitSource

namespace Inflate

/-! ### Descriptions of codes -/

theorem steady_codeLengths (order : List Nat) (n : Nat) (acc : Array Nat) :
    Steady (codeLengths order n acc) := by
  intro s lengths s' h ext
  fun_induction codeLengths order n acc s with
  | case1 | case2 =>
    obtain ⟨rfl, rfl⟩ := Prod.mk.inj (Except.ok.inj h)
    rw [codeLengths]
  | case3 => simp at h
  | case4 acc s symbol order n length s₁ hlength ih =>
    rw [codeLengths, steady_take 3 hlength ext]
    exact ih h

theorem steady_wordLengths (code : Huffman) (n : Nat) (acc : List Nat) :
    Steady (wordLengths code n acc) := by
  intro s lengths s' h ext
  fun_induction wordLengths code n acc s with
  | case1 acc s =>
    obtain ⟨rfl, rfl⟩ := Prod.mk.inj (Except.ok.inj h)
    rw [wordLengths, if_pos rfl]
  | case2 | case4 | case5 | case6 => simp at h
  | case3 n acc s hn symbol s₁ hdecode _ hsymbol ih =>
    rw [wordLengths_of_length hn (code.steady_decode hdecode ext) hsymbol, ih h]
  | case7 n acc s hn symbol s₁ hdecode _ hsymbol length base extra hrepeat more s₂ hmore _ hroom ih =>
    rw [wordLengths_of_repetition hn (code.steady_decode hdecode ext) hsymbol hrepeat
      (steady_take extra hmore ext) hroom, ih h]

theorem blockCodes_append {literals distances : Huffman} {s s' : BitSource}
    (h : blockCodes s = .ok (literals, distances, s')) (ext : Bytes) :
    blockCodes (s.append ext) = .ok (literals, distances, s'.append ext) := by
  simp only [blockCodes, bind_eq_ok] at h ⊢
  obtain ⟨⟨k, s₁⟩, h₁, ⟨l, s₂⟩, h₂, ⟨m, s₃⟩, h₃, h⟩ := h
  refine ⟨_, steady_take 5 h₁ ext, _, steady_take 5 h₂ ext, _, steady_take 4 h₃ ext, ?_⟩
  split at h
  · simp at h
  rename_i hcounts
  rw [if_neg hcounts]
  simp only [bind_eq_ok] at h ⊢
  obtain ⟨⟨first, s₄⟩, h₄, h⟩ := h
  refine ⟨_, steady_codeLengths _ _ _ h₄ ext, ?_⟩
  dsimp only at h ⊢
  split at h
  on_goal 2 => simp at h
  simp only [bind_eq_ok] at h ⊢
  obtain ⟨⟨all, s₅⟩, h₅, h⟩ := h
  refine ⟨_, steady_wordLengths _ _ _ h₅ ext, ?_⟩
  dsimp only at h ⊢
  split at h
  on_goal 2 => simp at h
  split at h
  on_goal 2 => simp at h
  obtain ⟨rfl, hrest⟩ := Prod.mk.inj (Except.ok.inj h)
  obtain ⟨rfl, rfl⟩ := Prod.mk.inj hrest
  rfl

/-! ### Blocks -/

variable {s s' : BitSource} {output result : Array UInt8}

theorem tokens_append {literals distances : Huffman}
    (h : tokens literals distances s output = .ok (s', result)) (ext : Bytes) :
    tokens literals distances (s.append ext) output = .ok (s'.append ext, result) := by
  fun_induction tokens literals distances s output with
  | case1 => simp at h
  | case2 s output s₁ hend =>
    obtain ⟨rfl, rfl⟩ := Prod.mk.inj (Except.ok.inj h)
    exact tokens_end (steady_token _ _ hend ext)
  | case3 s output token s₁ htoken _ ih =>
    rw [tokens_eq (steady_token _ _ htoken ext), ih h]

theorem stored_append (h : stored s output = .ok (s', result)) (ext : Bytes) :
    stored (s.append ext) output = .ok (s'.append ext, result) := by
  unfold stored at h ⊢
  split at h
  on_goal 2 => simp at h
  rename_i l₀ l₁ c₀ c₁ rest haligned
  rw [aligned_append (by simp [haligned]) ext, haligned]
  simp only [List.cons_append, List.splitAt_eq] at h ⊢
  split at h
  on_goal 2 => simp at h
  rename_i hcheck
  rw [if_pos hcheck]
  split at h
  · simp at h
  rename_i hlength
  rw [List.length_take] at hlength
  obtain ⟨rfl, rfl⟩ := Prod.mk.inj (Except.ok.inj h)
  rw [List.take_append_of_le_length (by omega), List.drop_append_of_le_length (by omega),
    if_neg (by rw [List.length_take]; exact hlength)]
  rfl

theorem block_append {type : Nat} (h : block type s output = .ok (s', result)) (ext : Bytes) :
    block type (s.append ext) output = .ok (s'.append ext, result) := by
  unfold block at h ⊢
  split at h
  · rename_i hstored
    rw [if_pos hstored]
    exact stored_append h ext
  rename_i hstored
  rw [if_neg hstored]
  split at h
  · rename_i hfixed
    rw [if_pos hfixed]
    exact tokens_append h ext
  rename_i hfixed
  rw [if_neg hfixed]
  split at h
  on_goal 2 => simp at h
  rename_i hdescribed
  rw [if_pos hdescribed]
  split at h
  · simp at h
  rename_i hcodes
  simp only [blockCodes_append hcodes ext]
  exact tokens_append h ext

theorem blocks_append (h : blocks s output = .ok (s', result)) (ext : Bytes) :
    blocks (s.append ext) output = .ok (s'.append ext, result) := by
  fun_induction blocks s output with
  | case1 => simp at h
  | case2 => simp at h
  | case3 s output heading s₁ hheading s₂ output₂ hblock _ _ hlast =>
    rw [blocks_of_block (steady_take 3 hheading ext) (block_append hblock ext), if_pos hlast]
    obtain ⟨rfl, rfl⟩ := Prod.mk.inj (Except.ok.inj h)
    rfl
  | case4 s output heading s₁ hheading s₂ output₂ hblock _ _ hlast ih =>
    rw [blocks_of_block (steady_take 3 hheading ext) (block_append hblock ext), if_neg hlast, ih h]

end Inflate

/-- What stands behind a stream stays behind it, and changes nothing in it. -/
theorem inflate_append {bytes rest : Bytes} {output : Array UInt8}
    (h : inflate bytes = .ok (output, rest)) (ext : Bytes) :
    inflate (bytes ++ ext) = .ok (output, rest ++ ext) := by
  unfold inflate at h
  split at h
  on_goal 2 => simp at h
  rename_i method flags body
  split at h
  on_goal 2 => simp at h
  rename_i hheader
  split at h
  · simp at h
  rename_i s found hblocks
  simp only [List.splitAt_eq] at h
  split at h
  · simp at h
  rename_i hlength
  split at h
  on_goal 2 => simp at h
  rename_i hcheck
  obtain ⟨rfl, rfl⟩ := Prod.mk.inj (Except.ok.inj h)
  rw [List.length_take] at hlength
  have haligned := aligned_append (s := s) (fun hnil => by simp [hnil] at hlength) ext
  have hread : Inflate.blocks (ofBytes (body ++ ext)) #[] = _ := Inflate.blocks_append hblocks ext
  simp only [inflate, List.cons_append, hheader, if_true, hread, haligned, List.splitAt_eq]
  rw [List.take_append_of_le_length (by omega), List.drop_append_of_le_length (by omega),
    if_neg (by rw [List.length_take]; exact hlength), if_pos hcheck]

end MinecraftWire.Zlib
