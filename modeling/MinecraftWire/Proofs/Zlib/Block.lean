import MinecraftWire.Proofs.Zlib.Lengths

/-! Blocks as bits. A block is read as the bytes its tokens expand to, whether it has the fixed
codes, codes that it describes or the bytes as they are. -/

namespace MinecraftWire.Zlib

open Block BitSource

/-! ### Numbers of symbols -/

namespace Block

theorem size_literalFrequencies (tokens : List Token) :
    (literalFrequencies tokens).size = literalCount := by
  unfold literalFrequencies
  rw [← List.foldr_reverse]
  induction tokens.reverse with
  | nil => simp
  | cons t tokens ih => rw [List.foldr_cons, Array.size_modify, ih]

theorem size_distanceFrequencies (tokens : List Token) :
    (distanceFrequencies tokens).size = distanceCount := by
  unfold distanceFrequencies
  rw [← List.foldr_reverse]
  induction tokens.reverse with
  | nil => simp
  | cons t tokens ih =>
    rw [List.foldr_cons]
    cases t with
    | literal byte => exact ih
    | copy length distance => rw [Array.size_modify, ih]

theorem size_lengthFrequencies (tokens : List LengthToken) :
    (lengthFrequencies tokens).size = 19 := by
  unfold lengthFrequencies
  rw [← List.foldr_reverse]
  induction tokens.reverse with
  | nil => simp
  | cons t tokens ih => rw [List.foldr_cons, Array.size_modify, ih]

end Block

/-! ### Descriptions of codes -/

/-- What goes into the description of two codes. -/
theorem Block.descriptionBits_eq_some {literals distances : List Nat} {bits : List Bool}
    (h : descriptionBits literals distances = some bits) :
    ∃ lengths code, lengths.length = 19 ∧ (∀ l ∈ lengths, l < 2 ^ 3) ∧
      Huffman.ofLengths? false lengths = some code ∧
      (∀ t ∈ lengthTokens (literals ++ distances), (code.wordTable 19).getD t.symbol [] ≠ []) ∧
      bits = lowBits 5 (literals.length - 257) ++ (lowBits 5 (distances.length - 1) ++
        (lowBits 4 ((trimmed 4 (lengthCodeOrder.map fun symbol => lengths.getD symbol 0)).length - 4) ++
        ((trimmed 4 (lengthCodeOrder.map fun symbol => lengths.getD symbol 0)).flatMap (lowBits 3) ++
          (lengthTokens (literals ++ distances)).flatMap fun t =>
            (code.wordTable 19).getD t.symbol [] ++ t.extra))) := by
  unfold descriptionBits at h
  obtain ⟨code, hcode, h⟩ := Option.bind_eq_some_iff.mp h
  obtain ⟨_, hguard, hbits⟩ := Option.bind_eq_some_iff.mp h
  refine ⟨_, code, ?_, ?_, hcode, ?_, ?_⟩
  · rw [Frequency.length_wordLengths, size_lengthFrequencies]
  · intro l hl
    exact Nat.lt_of_le_of_lt (Frequency.le_of_mem_wordLengths hl) (by decide)
  · intro t ht
    by_contra hword
    rw [guard] at hguard
    split at hguard
    · rename_i hall
      have := List.all_eq_true.mp hall t ht
      simp [hword] at this
    · simp at hguard
  · rw [← Option.some.inj hbits]
    simp only [List.append_assoc]

/-- A description gives the lengths of four to all nineteen words of the length code. -/
theorem length_trimmed_lengthCodeOrder (lengths : List Nat) :
    4 ≤ (trimmed 4 (lengthCodeOrder.map fun symbol => lengths.getD symbol 0)).length ∧
      (trimmed 4 (lengthCodeOrder.map fun symbol => lengths.getD symbol 0)).length ≤ 19 := by
  have hlength := length_trimmed 4 (lengthCodeOrder.map fun symbol => lengths.getD symbol 0)
  rw [List.length_map] at hlength
  exact hlength (by decide)

theorem lt_of_mem_trimmed_lengthCodeOrder {lengths : List Nat} (hbound : ∀ l ∈ lengths, l < 2 ^ 3) :
    ∀ l ∈ trimmed 4 (lengthCodeOrder.map fun symbol => lengths.getD symbol 0), l < 2 ^ 3 := by
  intro l hl
  obtain ⟨symbol, -, rfl⟩ := List.mem_map.mp (mem_of_mem_trimmed hl)
  by_cases hsymbol : symbol < lengths.length
  · apply hbound
    simp [List.getD_eq_getElem?_getD, hsymbol]
  · simp [List.getD_eq_getElem?_getD, hsymbol]

/-- Both codes are built again from their description. -/
theorem Inflate.blockCodes_descriptionBits {literals distances : List Nat}
    {literalCode distanceCode : Huffman} {bits : List Bool}
    (hliterals : 257 ≤ literals.length ∧ literals.length ≤ 286)
    (hdistances : 1 ≤ distances.length ∧ distances.length ≤ 30)
    (hlengths : ∀ l ∈ literals ++ distances, l < 16)
    (hliteralCode : Huffman.ofLengths? true literals = some literalCode)
    (hdistanceCode : Huffman.ofLengths? true distances = some distanceCode)
    (hbits : descriptionBits literals distances = some bits)
    {s : BitSource} {offset : Nat} {rest : List Bool} (hs : s.At offset (bits ++ rest)) :
    ∃ s', blockCodes s = .ok (literalCode, distanceCode, s') ∧ s'.At (offset + bits.length) rest := by
  obtain ⟨lengths, code, hsize, hbound, hcode, hwords, hbits⟩ := descriptionBits_eq_some hbits
  have hall := foldl_zip_trimmed hsize
  generalize hgiven : trimmed 4 (lengthCodeOrder.map fun symbol => lengths.getD symbol 0) = given
    at hbits hall
  have hcount : 4 ≤ given.length ∧ given.length ≤ 19 := by
    rw [← hgiven]
    exact length_trimmed_lengthCodeOrder lengths
  have hsmall : ∀ l ∈ given, l < 2 ^ 3 := by
    rw [← hgiven]
    exact lt_of_mem_trimmed_lengthCodeOrder hbound
  subst hbits
  simp only [List.append_assoc] at hs
  obtain ⟨s₁, h₁, hs₁⟩ := takes_take (by omega) s offset _ hs
  obtain ⟨s₂, h₂, hs₂⟩ := takes_take (by omega) s₁ _ _ hs₁
  obtain ⟨s₃, h₃, hs₃⟩ := takes_take (by omega) s₂ _ _ hs₂
  obtain ⟨s₄, h₄, hs₄⟩ :=
    takes_codeLengths lengthCodeOrder (Array.replicate 19 0) hcount.2 hsmall s₃ _ _ hs₃
  obtain ⟨s₅, h₅, hs₅⟩ := runs_lengthTokens code [] hlengths hwords s₄ _ rest _ hs₄
    (Nat.le_refl _)
  have hread : wordLengths code (literals ++ distances).length [] s₄ =
      .ok (literals ++ distances, s₅) := by
    rw [h₅, Nat.sub_self, wordLengths]
    simp
  rw [List.length_append] at hread
  refine ⟨s₅, ?_, ?_⟩
  · unfold blockCodes
    simp only [h₁, h₂, h₃, bind, Except.bind]
    rw [if_neg (by omega)]
    simp only [Nat.sub_add_cancel hcount.1, Nat.sub_add_cancel hliterals.1,
      Nat.sub_add_cancel hdistances.1, h₄, hall, hcode, hread, List.take_left', List.drop_left',
      hliteralCode, hdistanceCode]
    rfl
  · simpa only [List.length_append, Nat.add_assoc] using hs₅

/-! ### Kinds of blocks -/

/-- Behind `offset` bits, and with `output` before it, a block with the given bits gives `result`. -/
def Block.Gives (offset : Nat) (bits : List Bool) (output result : Array UInt8) : Prop :=
  ∃ type tail, type < 4 ∧ bits = lowBits 2 type ++ tail ∧
    ∀ s rest, At s (offset + 2) (tail ++ rest) →
      ∃ s', Inflate.block type s output = .ok (s', result) ∧ At s' (offset + bits.length) rest

namespace Block

variable {offset : Nat} {tokens : List Token} {output : Array UInt8}

theorem symbols_fixedLiterals : fixedLiterals.words.map (·.1) =
    List.range' 256 24 ++ List.range' 0 144 ++ List.range' 280 8 ++ List.range' 144 112 := by
  decide +kernel

theorem symbols_fixedDistances : fixedDistances.words.map (·.1) = List.range' 0 32 := by
  decide +kernel

/-- The fixed codes have words for every token. -/
theorem coversAll_fixedTables (tokens : List Token) : coversAll fixedTables tokens := by
  have hliterals : ∀ symbol < literalCount, fixedTables.literals.getD symbol [] ≠ [] := by
    intro symbol h
    refine Huffman.getD_wordTable_ne_nil h ?_ (by decide +kernel)
    rw [symbols_fixedLiterals]
    simp only [List.mem_append, List.mem_range'_1]
    unfold literalCount at h
    omega
  have hdistances : ∀ symbol < distanceCount, fixedTables.distances.getD symbol [] ≠ [] := by
    intro symbol h
    refine Huffman.getD_wordTable_ne_nil h ?_ (by decide +kernel)
    rw [symbols_fixedDistances, List.mem_range'_1]
    unfold distanceCount at h
    omega
  simp only [coversAll, Bool.and_eq_true, List.all_eq_true, bne_iff_ne]
  refine ⟨fun t ht => ?_, hliterals _ (by decide)⟩
  cases t with
  | literal byte =>
    have hbyte := byte.toNat_lt
    simp only [covers, bne_iff_ne]
    exact hliterals _ (by unfold literalCount; omega)
  | copy length distance =>
    have hlength : (lengthSlots.takeWhile (·.base ≤ length)).length ≤ 29 :=
      List.IsPrefix.length_le (List.takeWhile_prefix _)
    have hdistance : (distanceSlots.takeWhile (·.base ≤ distance)).length ≤ 30 :=
      List.IsPrefix.length_le (List.takeWhile_prefix _)
    simp only [covers, Bool.and_eq_true, bne_iff_ne]
    exact ⟨hliterals _ (by unfold lengthSymbol slotIndex endOfBlock literalCount; omega),
      hdistances _ (by unfold slotIndex distanceCount; omega)⟩

theorem gives_fixedBits (offset : Nat) (output : Array UInt8) (hvalid : ∀ t ∈ tokens, t.Valid) :
    Gives offset (fixedBits tokens) output (tokens.foldl Token.expand output) := by
  refine ⟨1, bodyBits fixedTables tokens, by omega, rfl, fun s rest hs => ?_⟩
  obtain ⟨s', h, hs'⟩ := Inflate.tokens_bodyBits hvalid
    (coversAll_fixedTables tokens) output hs
  refine ⟨s', h, ?_⟩
  rwa [fixedBits, List.length_append, length_lowBits, ← Nat.add_assoc]

/-- What goes into a block with codes of its own. -/
theorem describedBits_eq_some {bits : List Bool} (h : describedBits tokens = some bits) :
    ∃ literals distances literalCode distanceCode description,
      (257 ≤ literals.length ∧ literals.length ≤ 286) ∧
      (1 ≤ distances.length ∧ distances.length ≤ 30) ∧ (∀ l ∈ literals ++ distances, l < 16) ∧
      Huffman.ofLengths? true literals = some literalCode ∧
      Huffman.ofLengths? true distances = some distanceCode ∧
      coversAll (.ofCodes literalCode distanceCode) tokens ∧
      descriptionBits literals distances = some description ∧
      bits = lowBits 2 2 ++ (description ++ bodyBits (.ofCodes literalCode distanceCode) tokens) := by
  unfold describedBits at h
  obtain ⟨literalCode, hliteralCode, h⟩ := Option.bind_eq_some_iff.mp h
  obtain ⟨distanceCode, hdistanceCode, h⟩ := Option.bind_eq_some_iff.mp h
  obtain ⟨_, hguard, h⟩ := Option.bind_eq_some_iff.mp h
  obtain ⟨description, hdescription, hbits⟩ := Option.bind_eq_some_iff.mp h
  refine ⟨_, _, literalCode, distanceCode, description, ?_, ?_, ?_, hliteralCode, hdistanceCode, ?_,
    hdescription, ?_⟩
  · have hlength := length_trimmed 257
      (Frequency.wordLengths Huffman.maxLength (literalFrequencies tokens))
    rw [Frequency.length_wordLengths, size_literalFrequencies] at hlength
    exact hlength (by decide)
  · have hlength := length_trimmed 1
      (Frequency.wordLengths Huffman.maxLength (distanceFrequencies tokens))
    rw [Frequency.length_wordLengths, size_distanceFrequencies] at hlength
    exact hlength (by decide)
  · intro l hl
    refine Nat.lt_of_le_of_lt ?_ (by decide : Huffman.maxLength < 16)
    rcases List.mem_append.mp hl with hl | hl
    · exact Frequency.le_of_mem_wordLengths (mem_of_mem_trimmed hl)
    · exact Frequency.le_of_mem_wordLengths (mem_of_mem_trimmed hl)
  · by_contra hcovers
    rw [guard, if_neg hcovers] at hguard
    simp at hguard
  · rw [← Option.some.inj hbits, List.append_assoc]

theorem gives_describedBits (offset : Nat) (output : Array UInt8)
    (hvalid : ∀ t ∈ tokens, t.Valid) {bits : List Bool}
    (h : describedBits tokens = some bits) :
    Gives offset bits output (tokens.foldl Token.expand output) := by
  obtain ⟨literals, distances, literalCode, distanceCode, description, hliterals, hdistances, hlengths,
    hliteralCode, hdistanceCode, hcovers, hdescription, rfl⟩ := describedBits_eq_some h
  refine ⟨2, _, by omega, rfl, fun s rest hs => ?_⟩
  rw [List.append_assoc] at hs
  obtain ⟨s₁, h₁, hs₁⟩ := Inflate.blockCodes_descriptionBits hliterals hdistances hlengths
    hliteralCode hdistanceCode hdescription hs
  obtain ⟨s₂, h₂, hs₂⟩ := Inflate.tokens_bodyBits hvalid hcovers output hs₁
  refine ⟨s₂, ?_, ?_⟩
  · simp [Inflate.block, h₁, h₂]
  · rwa [List.length_append, length_lowBits, List.length_append, ← Nat.add_assoc, ← Nat.add_assoc]

/-- A number in two bytes, the low one first. -/
theorem lowBits_two_bytes {n : Nat} (hn : n < 65536) :
    lowBits 16 n = bitsOf [UInt8.ofNat (n % 256), UInt8.ofNat (n / 256)] := by
  have hsplit := lowBits_append (m := 8) 8 (n / 256) (Nat.mod_lt n (by decide : 0 < 2 ^ 8))
  rw [show n % 2 ^ 8 + n / 256 * 2 ^ 8 = n by omega] at hsplit
  have hbytes := bitsOf_append [UInt8.ofNat (n % 256)] [UInt8.ofNat (n / 256)]
  rw [bitsOf_ofNat (by omega), bitsOf_ofNat (by omega)] at hbytes
  rw [hsplit]
  exact hbytes.symm

theorem gives_storedBits (offset : Nat) (output : Array UInt8) {bytes : Bytes}
    (hlength : bytes.length ≤ 65535) :
    Gives offset (storedBits offset bytes) output (output ++ bytes) := by
  refine ⟨0, padding (offset + 2) ++ (lowBits 16 bytes.length ++
    (lowBits 16 (65535 - bytes.length) ++ bitsOf bytes)), by omega, ?_, fun s rest hs => ?_⟩
  · simp only [storedBits, List.append_assoc]
    rfl
  rw [lowBits_two_bytes (by omega), lowBits_two_bytes (by omega), ← bitsOf_append, ← bitsOf_append]
    at hs
  obtain ⟨back, haligned, hback⟩ := hs.aligned
  refine ⟨.ofBytes back, ?_, ?_⟩
  · have hlow : ∀ n, n < 65536 →
        (UInt8.ofNat (n % 256)).toNat + 256 * (UInt8.ofNat (n / 256)).toNat = n := by
      intro n hn
      rw [UInt8.toNat_ofNat', UInt8.toNat_ofNat']
      omega
    simp only [Inflate.block, if_true, Inflate.stored, haligned, List.cons_append, List.nil_append,
      hlow bytes.length (by omega), hlow (65535 - bytes.length) (by omega),
      Nat.add_sub_cancel' hlength, List.splitAt_eq, List.take_left', List.drop_left', Nat.lt_irrefl,
      if_false]
  · refine ⟨hback, ?_⟩
    simp only [BitSource.ofBytes, storedBits, padding, List.length_append, length_lowBits,
      List.length_replicate]
    have hbytes : (bytes.flatMap fun b => lowBits 8 b.toNat).length = 8 * bytes.length :=
      length_bitsOf bytes
    rw [hbytes]
    change 0 = _
    omega

/-- A block of tokens for the given bytes gives these bytes. -/
theorem gives_bits {bytes : Bytes} (hvalid : ∀ t ∈ tokens, t.Valid)
    (hexpand : tokens.foldl Token.expand output = output ++ bytes) :
    Gives offset (bits offset tokens bytes) output (output ++ bytes) := by
  have hfixed := gives_fixedBits offset output hvalid
  rw [hexpand] at hfixed
  have hcoded : Gives offset (if bytes.length < minDescribed then fixedBits tokens
      else (describedBits tokens).getD (fixedBits tokens)) output (output ++ bytes) := by
    split
    · exact hfixed
    cases hdescribed : describedBits tokens with
    | none => exact hfixed
    | some described =>
      have hgives := gives_describedBits offset output hvalid hdescribed
      rwa [hexpand] at hgives
  by_cases hstored : maxUnstored < bytes.length ∧ bytes.length ≤ windowSize ∧
      bytes.length ≤ (offset % 8 + (if bytes.length < minDescribed then fixedBits tokens
        else (describedBits tokens).getD (fixedBits tokens)).length) / 8 + 1
  · have hsmall := Nat.le_trans hstored.2.1 (by decide : windowSize ≤ 65535)
    rw [bits, if_pos hstored]
    exact gives_storedBits offset output hsmall
  · rw [bits, if_neg hstored]
    exact hcoded

end Block

/-! ### Blocks one after the other -/

namespace Inflate

variable {offset : Nat} {rest : List Bool} {output result : Array UInt8}

theorem blocks_of_block {s s₁ s₂ : BitSource} {heading : Nat} (h : s.take 3 = .ok (heading, s₁))
    (hblock : block (heading / 2) s₁ output = .ok (s₂, result)) :
    blocks s output = if heading % 2 = 1 then .ok (s₂, result) else blocks s₂ result := by
  rw [blocks]
  split <;> rename_i h' <;> rw [h] at h' <;> simp at h'
  obtain ⟨rfl, rfl⟩ := h'
  split <;> rename_i h' <;> rw [hblock] at h' <;> simp at h'
  rw [h'.1, h'.2]

/-- The first bit of a block tells whether it is the last one. -/
theorem blocks_of_gives {bits : List Bool} (h : Block.Gives (offset + 1) bits output result)
    (last : Bool) {s : BitSource} (hs : s.At offset (last :: bits ++ rest)) :
    ∃ s', s'.At (offset + (last :: bits).length) rest ∧
      blocks s output = if last then .ok (s', result) else blocks s' result := by
  obtain ⟨type, tail, htype, rfl, hblock⟩ := h
  have hlast : last.toNat < 2 ^ 1 := by cases last <;> decide
  have hheading : last :: (lowBits 2 type ++ tail) ++ rest =
      lowBits 3 (last.toNat + type * 2 ^ 1) ++ (tail ++ rest) := by
    have hsplit := lowBits_append 2 type hlast
    rw [lowBits_one] at hsplit
    rw [show 3 = 1 + 2 from rfl, hsplit]
    simp
  rw [hheading] at hs
  obtain ⟨s₁, h₁, hs₁⟩ := takes_take (by omega) s offset _ hs
  obtain ⟨s₂, h₂, hs₂⟩ := hblock s₁ rest (by rwa [length_lowBits] at hs₁)
  refine ⟨s₂, ?_, ?_⟩
  · rwa [List.length_cons, Nat.add_comm _ 1, ← Nat.add_assoc]
  · have htypeEq : (last.toNat + type * 2 ^ 1) / 2 = type := by omega
    rw [blocks_of_block h₁ (by rw [htypeEq]; exact h₂)]
    cases last with
    | true => rw [if_pos (by simp), if_pos rfl]
    | false => rw [if_neg (by simp), if_neg (by simp)]

end Inflate

end MinecraftWire.Zlib
