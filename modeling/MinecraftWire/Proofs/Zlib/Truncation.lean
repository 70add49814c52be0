import MinecraftWire.Proofs.Zlib.Extension
import MinecraftWire.Zlib.Portions

/-! Streams that are cut off. What a part of a stream gives before it ends is the beginning of what
the whole stream gives, so no part of a stream gives out more bytes than the whole. -/

namespace MinecraftWire.Zlib

/-! ### Output only grows -/

theorem Token.prefix_repeatBack (distance length : Nat) (output : Array UInt8) :
    output.toList <+: (repeatBack distance length output).toList := by
  induction length generalizing output with
  | zero => exact List.prefix_rfl
  | succ length ih =>
    rw [repeatBack]
    refine List.IsPrefix.trans ?_ (ih _)
    rw [Array.toList_push]
    exact List.prefix_append _ _

theorem Token.prefix_expand (t : Token) (output : Array UInt8) :
    output.toList <+: (t.expand output).toList := by
  cases t with
  | literal b =>
    rw [expand, Array.toList_push]
    exact List.prefix_append _ _
  | copy length distance => exact prefix_repeatBack distance length output

namespace Inflate

open BitSource

variable {s s' : BitSource} {output result : Array UInt8} {halt : Halt} {ext : Bytes}

theorem prefix_tokens {literals distances : Huffman}
    (h : tokens literals distances s output = .ok (s', result)) :
    output.toList <+: result.toList := by
  fun_induction tokens literals distances s output with
  | case1 => simp at h
  | case2 =>
    obtain ⟨-, rfl⟩ := Prod.mk.inj (Except.ok.inj h)
    exact List.prefix_rfl
  | case3 s output token s₁ htoken _ ih => exact (token.prefix_expand output).trans (ih h)

theorem prefix_stored (h : stored s output = .ok (s', result)) :
    output.toList <+: result.toList := by
  unfold stored at h
  split at h
  on_goal 2 => simp at h
  simp only [List.splitAt_eq] at h
  split at h
  on_goal 2 => simp at h
  split at h
  · simp at h
  obtain ⟨-, rfl⟩ := Prod.mk.inj (Except.ok.inj h)
  rw [Array.toList_appendList]
  exact List.prefix_append _ _

theorem prefix_block {type : Nat} (h : block type s output = .ok (s', result)) :
    output.toList <+: result.toList := by
  unfold block at h
  split at h
  · exact prefix_stored h
  split at h
  · exact prefix_tokens h
  split at h
  on_goal 2 => simp at h
  split at h
  · simp at h
  · exact prefix_tokens h

theorem prefix_blocks (h : blocks s output = .ok (s', result)) :
    output.toList <+: result.toList := by
  fun_induction blocks s output with
  | case1 => simp at h
  | case2 => simp at h
  | case3 s output heading s₁ hheading s₂ output₂ hblock =>
    obtain ⟨-, rfl⟩ := Prod.mk.inj (Except.ok.inj h)
    exact prefix_block hblock
  | case4 s output heading s₁ hheading s₂ output₂ hblock _ _ hlast ih =>
    exact (prefix_block hblock).trans (ih h)

/-- Blocks begin with one that is read. -/
theorem exists_block_of_blocks {heading : Nat} {s₁ : BitSource}
    (h : blocks s output = .ok (s', result)) (hheading : s.take 3 = .ok (heading, s₁)) :
    ∃ s₂ first, block (heading / 2) s₁ output = .ok (s₂, first) ∧
      first.toList <+: result.toList := by
  rcases hblock : block (heading / 2) s₁ output with halt | ⟨s₂, first⟩
  · rw [blocks] at h
    split at h <;> rename_i h' <;> rw [hheading] at h' <;> simp at h'
    obtain ⟨rfl, rfl⟩ := h'
    split at h <;> rename_i h' <;> rw [hblock] at h' <;> simp at h'
    simp at h
  · refine ⟨s₂, first, rfl, ?_⟩
    rw [blocks_of_block hheading hblock] at h
    split at h
    · obtain ⟨-, rfl⟩ := Prod.mk.inj (Except.ok.inj h)
      exact List.prefix_rfl
    · exact prefix_blocks h

/-! ### A part and the whole -/

theorem tokens_halt {literals distances : Huffman}
    (h : tokens literals distances s output = .error halt)
    (hext : tokens literals distances (s.append ext) output = .ok (s', result)) :
    halt.output.toList <+: result.toList := by
  fun_induction tokens literals distances s output with
  | case1 =>
    obtain rfl := Except.error.inj h
    exact prefix_tokens hext
  | case2 => simp at h
  | case3 s output token s₁ htoken _ ih =>
    rw [tokens_eq (steady_token _ _ htoken ext)] at hext
    exact ih h hext

theorem stored_halt (h : stored s output = .error halt)
    (hext : stored (s.append ext) output = .ok (s', result)) :
    halt.output.toList <+: result.toList := by
  have hgrows := prefix_stored hext
  unfold stored at h
  split at h
  on_goal 2 =>
    obtain rfl := Except.error.inj h
    exact hgrows
  rename_i l₀ l₁ c₀ c₁ rest haligned
  simp only [List.splitAt_eq] at h
  split at h
  on_goal 2 =>
    obtain rfl := Except.error.inj h
    exact hgrows
  rename_i hcheck
  split at h
  on_goal 2 => simp at h
  -- the part ends among the stored bytes
  rename_i hlength
  obtain rfl := Except.error.inj h
  unfold stored at hext
  rw [aligned_append (by simp [haligned]) ext, haligned] at hext
  simp only [List.cons_append, List.splitAt_eq] at hext
  rw [if_pos hcheck] at hext
  split at hext
  · simp at hext
  obtain ⟨-, rfl⟩ := Prod.mk.inj (Except.ok.inj hext)
  rw [Array.toList_appendList, Array.toList_appendList]
  have hpart := (List.take_prefix (l₀.toNat + 256 * l₁.toNat) rest).trans
    (List.prefix_append rest ext)
  exact (List.prefix_append_right_inj _).mpr
    (List.prefix_take_iff.mpr ⟨hpart, Nat.le_of_lt hlength⟩)

theorem block_halt {type : Nat} (h : block type s output = .error halt)
    (hext : block type (s.append ext) output = .ok (s', result)) :
    halt.output.toList <+: result.toList := by
  have hgrows := prefix_block hext
  unfold block at h hext
  split at h
  · rename_i hstored
    rw [if_pos hstored] at hext
    exact stored_halt h hext
  rename_i hstored
  rw [if_neg hstored] at hext
  split at h
  · rename_i hfixed
    rw [if_pos hfixed] at hext
    exact tokens_halt h hext
  rename_i hfixed
  rw [if_neg hfixed] at hext
  split at h
  on_goal 2 =>
    obtain rfl := Except.error.inj h
    exact hgrows
  rename_i hdescribed
  rw [if_pos hdescribed] at hext
  split at h
  · obtain rfl := Except.error.inj h
    exact hgrows
  rename_i hcodes
  simp only [blockCodes_append hcodes ext] at hext
  exact tokens_halt h hext

theorem blocks_halt (h : blocks s output = .error halt)
    (hext : blocks (s.append ext) output = .ok (s', result)) :
    halt.output.toList <+: result.toList := by
  fun_induction blocks s output with
  | case1 s output stop hheading =>
    obtain rfl := Except.error.inj h
    exact prefix_blocks hext
  | case2 s output heading s₁ hheading halt' hblock =>
    obtain rfl := Except.error.inj h
    obtain ⟨s₂, first, hfirst, hgrows⟩ := exists_block_of_blocks hext (steady_take 3 hheading ext)
    exact (block_halt hblock hfirst).trans hgrows
  | case3 => simp at h
  | case4 s output heading s₁ hheading s₂ output₂ hblock _ _ hlast ih =>
    rw [blocks_of_block (steady_take 3 hheading ext) (block_append hblock ext),
      if_neg hlast] at hext
    exact ih h hext

end Inflate

/-- What a part of a stream gives before it ends is the beginning of what the whole gives. -/
theorem prefix_of_halt {bytes ext rest : Bytes} {halt : Halt} {output : Array UInt8}
    (h : inflate bytes = .error halt) (hext : inflate (bytes ++ ext) = .ok (output, rest)) :
    halt.output.toList <+: output.toList := by
  unfold inflate at h
  split at h
  on_goal 2 =>
    obtain rfl := Except.error.inj h
    exact List.nil_prefix
  rename_i method flags body
  split at h
  on_goal 2 =>
    obtain rfl := Except.error.inj h
    exact List.nil_prefix
  rename_i hheader
  simp only [inflate, List.cons_append, hheader, if_true] at hext
  split at hext
  · simp at hext
  rename_i s' whole hwhole
  simp only [List.splitAt_eq] at hext
  have houtput : whole = output := by
    split at hext
    · simp at hext
    split at hext
    · exact (Prod.mk.inj (Except.ok.inj hext)).1
    · simp at hext
  rw [← houtput]
  split at h
  · rename_i hblocks
    obtain rfl := Except.error.inj h
    exact Inflate.blocks_halt hblocks hwhole
  · -- only the checksum is missing or wrong
    rename_i s found hblocks
    have hsame := Inflate.blocks_append hblocks ext
    change Inflate.blocks (.ofBytes (body ++ ext)) #[] = _ at hsame
    rw [hwhole] at hsame
    obtain ⟨-, rfl⟩ := Prod.mk.inj (Except.ok.inj hsame)
    simp only [List.splitAt_eq] at h
    split at h
    · obtain rfl := Except.error.inj h
      exact List.prefix_rfl
    · split at h
      · simp at h
      · obtain rfl := Except.error.inj h
        exact List.prefix_rfl

/-! ### How much comes out -/

section Part

variable {bytes ext rest : Bytes} {output : Array UInt8}
  (hext : inflate (bytes ++ ext) = .ok (output, rest))
include hext

theorem inflatedSize_le (k : Nat) : inflatedSize bytes k ≤ output.size := by
  rw [← List.take_append_drop k bytes, List.append_assoc] at hext
  unfold inflatedSize
  rcases h : inflate (bytes.take k) with halt | ⟨found, left⟩
  · have := (prefix_of_halt h hext).length_le
    simpa using this
  · rw [inflate_append h] at hext
    obtain ⟨rfl, -⟩ := Prod.mk.inj (Except.ok.inj hext)
    exact Nat.le_refl _

omit hext in
theorem lastFull_le (n : Nat) : lastFull n ≤ n :=
  Nat.le_trans (Nat.div_mul_le_self _ _) (Nat.sub_le n 1)

omit hext in
theorem handedOver_le (bytes : Bytes) (k : Nat) : handedOver bytes k ≤ inflatedSize bytes k := by
  have hfull := lastFull_le (inflatedSize bytes k)
  rw [handedOver]
  dsimp only
  split_ifs <;> omega

/-- No part of a stream gives out more bytes than the whole. -/
theorem released_le {halt : Halt} (h : inflate bytes = .error halt) :
    released bytes halt ≤ output.size := by
  have hhanded (k : Nat) : handedOver bytes k ≤ output.size :=
    Nat.le_trans (handedOver_le bytes k) (inflatedSize_le hext k)
  have houtput : halt.output.size ≤ output.size := by
    simpa using (prefix_of_halt h hext).length_le
  have hfull := lastFull_le halt.output.size
  unfold released
  split
  · exact hhanded _
  · rename_i left _
    have hstart := hhanded ((bytes.length - left - 1) / pieceSize * pieceSize)
    dsimp only
    split_ifs <;> omega

end Part

end MinecraftWire.Zlib
