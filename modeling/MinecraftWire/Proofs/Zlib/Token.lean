import MinecraftWire.Proofs.Zlib.Bits
import MinecraftWire.Zlib.Inflate

/-! Tokens as bits. A word of a prefix code is read as its symbol, so a token whose symbols have
words is read back from its bits, whatever the code is. -/

namespace MinecraftWire.Zlib

open Block BitSource

/-! ### Words -/

namespace Huffman

theorem takes_walk {t : Huffman} {symbol : Nat} {word : List Bool} (h : (symbol, word) ∈ t.words) :
    Takes t.walk word symbol := by
  induction t generalizing word with
  | unused => simp [words] at h
  | leaf n =>
    simp only [words, List.mem_singleton, Prod.mk.injEq] at h
    obtain ⟨rfl, rfl⟩ := h
    exact fun s offset rest hs => ⟨s, rfl, hs⟩
  | node zero one ihz iho =>
    simp only [words, List.mem_append, List.mem_map, Prod.mk.injEq] at h
    intro s offset rest hs
    rcases h with ⟨⟨n, tail⟩, hmem, rfl, rfl⟩ | ⟨⟨n, tail⟩, hmem, rfl, rfl⟩
    · obtain ⟨s₁, h₁, hs₁⟩ := takes_next false s offset (tail ++ rest) hs
      obtain ⟨s₂, h₂, hs₂⟩ := ihz hmem s₁ _ rest hs₁
      refine ⟨s₂, by simp [walk, h₁, h₂], ?_⟩
      rwa [List.length_cons, Nat.add_comm tail.length, ← Nat.add_assoc]
    · obtain ⟨s₁, h₁, hs₁⟩ := takes_next true s offset (tail ++ rest) hs
      obtain ⟨s₂, h₂, hs₂⟩ := iho hmem s₁ _ rest hs₁
      refine ⟨s₂, by simp [walk, h₁, h₂], ?_⟩
      rwa [List.length_cons, Nat.add_comm tail.length, ← Nat.add_assoc]

theorem decode_node (zero one : Huffman) : (node zero one).decode = (node zero one).walk := by
  funext s
  rw [decode, walk]
  rcases s.next with stop | ⟨bit, s'⟩
  · rfl
  · cases bit <;> rfl

theorem takes_decode {t : Huffman} {symbol : Nat} {word : List Bool} (h : (symbol, word) ∈ t.words)
    (hword : word ≠ []) : Takes t.decode word symbol := by
  cases t with
  | unused => simp [words] at h
  | leaf n =>
    simp only [words, List.mem_singleton, Prod.mk.injEq] at h
    exact absurd h.2 hword
  | node zero one =>
    rw [decode_node]
    exact takes_walk h

theorem getD_wordTable {t : Huffman} {count symbol : Nat} (h : symbol < count) :
    (t.wordTable count).getD symbol [] =
      ((t.words.find? (·.1 == symbol)).map (·.2)).getD [] := by
  simp [wordTable, Array.getD, h]

/-- A symbol that has a word in the table is read from it. -/
theorem takes_word {t : Huffman} {count symbol : Nat}
    (h : (t.wordTable count).getD symbol [] ≠ []) :
    Takes t.decode ((t.wordTable count).getD symbol []) symbol := by
  refine takes_decode ?_ h
  by_cases hsymbol : symbol < count
  · rw [getD_wordTable hsymbol] at h ⊢
    cases hfind : t.words.find? (·.1 == symbol) with
    | none => simp [hfind] at h
    | some w =>
      have hfound := List.find?_some hfind
      have hmem := List.mem_of_find?_eq_some hfind
      rw [beq_iff_eq] at hfound
      rwa [← hfound]
  · simp [wordTable, Array.getD, hsymbol] at h

/-- Where no word is empty, every symbol of the code has a word in the table. -/
theorem getD_wordTable_ne_nil {t : Huffman} {count symbol : Nat} (hsymbol : symbol < count)
    (hmem : symbol ∈ t.words.map (·.1)) (hwords : t.words.all (·.2 != [])) :
    (t.wordTable count).getD symbol [] ≠ [] := by
  rw [getD_wordTable hsymbol]
  obtain ⟨w, hw, rfl⟩ := List.mem_map.mp hmem
  cases hfind : t.words.find? (·.1 == w.1) with
  | none => exact absurd (List.find?_eq_none.mp hfind w hw) (by simp)
  | some u =>
    have hword := List.all_eq_true.mp hwords u (List.mem_of_find?_eq_some hfind)
    exact bne_iff_ne.mp hword

end Huffman

/-! ### Slots -/

/-- Each slot goes on at least to the start of the next. -/
def Contiguous : List Slot → Prop
  | a :: b :: slots => b.base ≤ a.base + 2 ^ a.extra ∧ Contiguous (b :: slots)
  | _ => True

instance decidableContiguous : (slots : List Slot) → Decidable (Contiguous slots)
  | [] => isTrue trivial
  | [_] => isTrue trivial
  | _ :: b :: slots => @instDecidableAnd _ _ _ (decidableContiguous (b :: slots))

/-- A number from the first slot on that is not past the last one lies in the slot it gets. -/
theorem exists_slot {a : Slot} {slots : List Slot} {n : Nat} (hslots : Contiguous (a :: slots))
    (hstart : a.base ≤ n)
    (hend : ∀ b, (a :: slots).getLast? = some b → n < b.base + 2 ^ b.extra) :
    ∃ slot, (a :: slots)[slotIndex (a :: slots) n]? = some slot ∧ slot.base ≤ n ∧
      n < slot.base + 2 ^ slot.extra := by
  induction slots generalizing a with
  | nil =>
    refine ⟨a, ?_, hstart, hend a rfl⟩
    simp [slotIndex, hstart]
  | cons b slots ih =>
    obtain ⟨hab, hslots⟩ := hslots
    by_cases hb : b.base ≤ n
    · obtain ⟨slot, hslot, hlow, hhigh⟩ := ih hslots hb (by simpa using hend)
      refine ⟨slot, ?_, hlow, hhigh⟩
      rw [← hslot]
      simp [slotIndex, hstart, hb]
    · refine ⟨a, ?_, hstart, by omega⟩
      simp [slotIndex, hstart, hb]

theorem takes_slotValue {a : Slot} {slots : List Slot} {n : Nat} (hslots : Contiguous (a :: slots))
    (hstart : a.base ≤ n)
    (hend : ∀ b, (a :: slots).getLast? = some b → n < b.base + 2 ^ b.extra) :
    Takes (slotValue (a :: slots) (slotIndex (a :: slots) n)) (extraBits (a :: slots) n) n := by
  obtain ⟨slot, hslot, hlow, hhigh⟩ := exists_slot hslots hstart hend
  intro s offset rest hs
  rw [extraBits, hslot] at hs
  obtain ⟨s₁, h₁, hs₁⟩ := takes_take (by omega) s offset rest hs
  refine ⟨s₁, ?_, by rwa [extraBits, hslot]⟩
  simp only [slotValue, hslot, h₁]
  rw [Nat.add_sub_cancel' hlow]

/-! ### Tokens -/

namespace Token

/-- Copies have a length and a distance that the slots can tell. -/
def Valid : Token → Prop
  | literal _ => True
  | copy length distance =>
    minCopy ≤ length ∧ length ≤ maxCopy ∧ 0 < distance ∧ distance ≤ windowSize

end Token

theorem takes_length {n : Nat} (hmin : minCopy ≤ n) (hmax : n ≤ maxCopy) :
    Takes (slotValue lengthSlots (slotIndex lengthSlots n)) (extraBits lengthSlots n) n := by
  refine takes_slotValue (by decide) hmin fun b hb => ?_
  obtain rfl := Option.some.inj hb
  exact Nat.lt_of_le_of_lt hmax (by decide)

theorem takes_distance {n : Nat} (hpos : 0 < n) (hmax : n ≤ windowSize) :
    Takes (slotValue distanceSlots (slotIndex distanceSlots n)) (extraBits distanceSlots n) n := by
  refine takes_slotValue (by decide) hpos fun b hb => ?_
  obtain rfl := Option.some.inj hb
  exact Nat.lt_of_le_of_lt hmax (by decide)

variable {literals distances : Huffman}

theorem takes_copy {length distance : Nat} (hvalid : (Token.copy length distance).Valid)
    (hcovers : (distances.wordTable distanceCount).getD (slotIndex distanceSlots distance) [] ≠ []) :
    Takes (copyToken distances (slotIndex lengthSlots length))
      (extraBits lengthSlots length ++
        (distances.wordTable distanceCount).getD (slotIndex distanceSlots distance) [] ++
          extraBits distanceSlots distance) (.copy length distance) := by
  obtain ⟨hmin, hmax, hpos, hdistance⟩ := hvalid
  intro s offset rest hs
  rw [List.append_assoc, List.append_assoc] at hs
  obtain ⟨s₁, h₁, hs₁⟩ := takes_length hmin hmax s offset _ hs
  obtain ⟨s₂, h₂, hs₂⟩ := Huffman.takes_word hcovers s₁ _ _ hs₁
  obtain ⟨s₃, h₃, hs₃⟩ := takes_distance hpos hdistance s₂ _ _ hs₂
  refine ⟨s₃, ?_, ?_⟩
  · simp only [copyToken, h₁, h₂, h₃]
  · rwa [List.length_append, List.length_append, ← Nat.add_assoc, ← Nat.add_assoc]

/-- A token whose symbols have words is read from its bits. -/
theorem takes_token {t : Token} (hvalid : t.Valid)
    (hcovers : covers (.ofCodes literals distances) t) :
    Takes (BitSource.token literals distances) (tokenBits (.ofCodes literals distances) t)
      (some t) := by
  intro s offset rest hs
  cases t with
  | literal byte =>
    have hword : (literals.wordTable literalCount).getD byte.toNat [] ≠ [] :=
      bne_iff_ne.mp hcovers
    obtain ⟨s₁, h₁, hs₁⟩ := Huffman.takes_word hword s offset rest hs
    have hbyte : byte.toNat < endOfBlock := byte.toNat_lt
    refine ⟨s₁, ?_, hs₁⟩
    simp only [BitSource.token, h₁, hbyte, if_true, UInt8.ofNat_toNat]
  | copy length distance =>
    simp only [covers, Bool.and_eq_true, bne_iff_ne] at hcovers
    obtain ⟨hlength, hdistance⟩ := hcovers
    simp only [tokenBits, List.append_assoc] at hs
    obtain ⟨s₁, h₁, hs₁⟩ := Huffman.takes_word hlength s offset _ hs
    simp only [← List.append_assoc] at hs₁
    obtain ⟨s₂, h₂, hs₂⟩ := takes_copy hvalid hdistance s₁ _ rest hs₁
    refine ⟨s₂, ?_, ?_⟩
    · have hlt : ¬ lengthSymbol length < endOfBlock := by
        unfold lengthSymbol
        omega
      have hne : lengthSymbol length ≠ endOfBlock := by
        unfold lengthSymbol
        omega
      have hindex : lengthSymbol length - (endOfBlock + 1) = slotIndex lengthSlots length := by
        unfold lengthSymbol
        omega
      simp only [BitSource.token, h₁, hlt, hne, if_false, hindex, h₂]
    · simpa [tokenBits, WordTables.ofCodes, Nat.add_assoc] using hs₂

theorem takes_endOfBlock (distances : Huffman)
    (h : (literals.wordTable literalCount).getD endOfBlock [] ≠ []) :
    Takes (BitSource.token literals distances) ((literals.wordTable literalCount).getD endOfBlock [])
      none := by
  intro s offset rest hs
  obtain ⟨s₁, h₁, hs₁⟩ := Huffman.takes_word h s offset rest hs
  refine ⟨s₁, ?_, hs₁⟩
  simp only [BitSource.token, h₁, Nat.lt_irrefl, if_false, if_true]

/-! ### Blocks of tokens -/

theorem Inflate.tokens_eq {s s' : BitSource} {t : Token} {output : Array UInt8}
    (h : s.token literals distances = .ok (some t, s')) :
    Inflate.tokens literals distances s output =
      Inflate.tokens literals distances s' (t.expand output) := by
  rw [Inflate.tokens]
  split <;> rename_i h' <;> rw [h] at h' <;> simp at h'
  rw [h'.1, h'.2]

theorem Inflate.tokens_end {s s' : BitSource} {output : Array UInt8}
    (h : s.token literals distances = .ok (none, s')) :
    Inflate.tokens literals distances s output = .ok (s', output) := by
  rw [Inflate.tokens]
  split <;> rename_i h' <;> rw [h] at h' <;> simp at h'
  rw [h']

/-- The tokens of a block are expanded one after the other. -/
theorem Inflate.tokens_bodyBits {tokens : List Token} (hvalid : ∀ t ∈ tokens, t.Valid)
    (hcovers : coversAll (.ofCodes literals distances) tokens) {s : BitSource} {offset : Nat}
    {rest : List Bool} (output : Array UInt8)
    (hs : s.At offset (bodyBits (.ofCodes literals distances) tokens ++ rest)) :
    ∃ s', Inflate.tokens literals distances s output = .ok (s', tokens.foldl Token.expand output) ∧
      s'.At (offset + (bodyBits (.ofCodes literals distances) tokens).length) rest := by
  simp only [coversAll, Bool.and_eq_true, List.all_eq_true, bne_iff_ne] at hcovers
  obtain ⟨hcovers, hend⟩ := hcovers
  induction tokens generalizing s offset output with
  | nil =>
    rw [bodyBits, List.flatMap_nil, List.nil_append] at hs ⊢
    obtain ⟨s', h, hs'⟩ := takes_endOfBlock distances hend s offset rest hs
    exact ⟨s', tokens_end h, hs'⟩
  | cons t tokens ih =>
    rw [bodyBits, List.flatMap_cons, List.append_assoc, List.append_assoc] at hs
    obtain ⟨s₁, h₁, hs₁⟩ := takes_token (hvalid t List.mem_cons_self)
      (hcovers t List.mem_cons_self) s offset _ hs
    rw [← List.append_assoc] at hs₁
    obtain ⟨s₂, h₂, hs₂⟩ := ih (fun u hu => hvalid u (List.mem_cons_of_mem t hu))
      (t.expand output) hs₁ (fun u hu => hcovers u (List.mem_cons_of_mem t hu))
    refine ⟨s₂, ?_, ?_⟩
    · rw [tokens_eq h₁, h₂, List.foldl_cons]
    · simpa [bodyBits, Nat.add_assoc] using hs₂

end MinecraftWire.Zlib
