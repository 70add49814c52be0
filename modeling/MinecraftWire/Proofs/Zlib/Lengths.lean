import Mathlib.Data.List.SplitBy
import MinecraftWire.Proofs.Zlib.Token

/-! Word lengths as bits. The lengths that frequencies call for stay within their bound, and a list
of lengths is read back from its runs and repetitions, and from its first entries where the rest is
zero. -/

namespace MinecraftWire.Zlib

open Block BitSource

/-! ### Writing into an array -/

theorem size_foldl_set {β : Type} (place : β → Nat) (value : β → Nat) (l : List β)
    (acc : Array Nat) :
    (l.foldl (fun acc b => acc.setIfInBounds (place b) (value b)) acc).size = acc.size := by
  induction l generalizing acc with
  | nil => rfl
  | cons b l ih => rw [List.foldl_cons, ih, Array.size_setIfInBounds]

theorem mem_foldl_set {β : Type} (place : β → Nat) (value : β → Nat) {l : List β} {acc : Array Nat}
    {x : Nat} (h : x ∈ l.foldl (fun acc b => acc.setIfInBounds (place b) (value b)) acc) :
    x ∈ acc ∨ ∃ b ∈ l, x = value b := by
  induction l generalizing acc with
  | nil => exact .inl h
  | cons b l ih =>
    rw [List.foldl_cons] at h
    rcases ih h with h | ⟨c, hc, hx⟩
    · rcases Array.mem_or_eq_of_mem_setIfInBounds h with h | h
      · exact .inl h
      · exact .inr ⟨b, List.mem_cons_self, h⟩
    · exact .inr ⟨c, List.mem_cons_of_mem b hc, hx⟩

theorem getElem?_foldl_set (f : Nat → Nat) (l : List Nat) (acc : Array Nat) (j : Nat)
    (hj : j < acc.size) :
    (l.foldl (fun acc i => acc.setIfInBounds i (f i)) acc)[j]? =
      if j ∈ l then some (f j) else acc[j]? := by
  induction l generalizing acc with
  | nil => simp
  | cons i l ih =>
    rw [List.foldl_cons, ih _ (by rwa [Array.size_setIfInBounds])]
    by_cases hij : i = j
    · subst hij
      by_cases hl : i ∈ l
      · simp [hl]
      · simp [hl, hj]
    · by_cases hl : j ∈ l
      · simp [hl]
      · simp [hl, hij, Ne.symm hij]

/-! ### Lengths for frequencies -/

namespace Frequency

theorem length_wordLengths (maxLength : Nat) (frequencies : Array Nat) :
    (wordLengths maxLength frequencies).length = frequencies.size := by
  rw [wordLengths, Array.length_toList,
    size_foldl_set (fun s : (Nat × Nat) × Nat => s.1.2) (fun s => s.2), Array.size_replicate]

theorem le_of_mem_wordLengths {maxLength n : Nat} {frequencies : Array Nat}
    (h : n ∈ wordLengths maxLength frequencies) : n ≤ maxLength := by
  rw [wordLengths, Array.mem_toList_iff] at h
  rcases mem_foldl_set (fun s : (Nat × Nat) × Nat => s.1.2) (fun s => s.2) h with h | ⟨s, hs, rfl⟩
  · have := (Array.mem_replicate.mp h).2
    omega
  · have hs := (List.of_mem_zip hs).2
    obtain ⟨k, hk, hmem⟩ := List.mem_flatMap.mp hs
    have := List.eq_of_mem_replicate hmem
    have := List.mem_range.mp hk
    omega

end Frequency

/-! ### The first entries of a list -/

theorem length_trimmed (n : Nat) (lengths : List Nat) (h : n ≤ lengths.length) :
    n ≤ (trimmed n lengths).length ∧ (trimmed n lengths).length ≤ lengths.length := by
  rw [trimmed, List.length_take]
  omega

theorem mem_of_mem_trimmed {n x : Nat} {lengths : List Nat} (h : x ∈ trimmed n lengths) :
    x ∈ lengths :=
  List.mem_of_mem_take h

/-- Only zeros are left out. -/
theorem exists_trimmed_eq (n : Nat) (lengths : List Nat) :
    ∃ m, trimmed n lengths = lengths.take m ∧ ∀ x ∈ lengths.drop m, x = 0 := by
  refine ⟨_, rfl, fun x hx => ?_⟩
  -- what is left out lies within the zeros that end the list
  have hsplit : lengths = (lengths.reverse.dropWhile (· = 0)).reverse ++
      (lengths.reverse.takeWhile (· = 0)).reverse := by
    rw [← List.reverse_append, List.takeWhile_append_dropWhile, List.reverse_reverse]
  have hdrop : lengths.drop (lengths.reverse.dropWhile (· = 0)).length =
      (lengths.reverse.takeWhile (· = 0)).reverse := by
    conv => lhs; arg 2; rw [hsplit]
    rw [List.drop_left' (List.length_reverse)]
  have hzeros := List.all_takeWhile (p := (· = 0)) (l := lengths.reverse)
  rw [List.all_eq_true] at hzeros
  have hmem : x ∈ lengths.drop (lengths.reverse.dropWhile (· = 0)).length := by
    rw [← Nat.add_sub_cancel' (Nat.le_max_right n (lengths.reverse.dropWhile (· = 0)).length),
      ← List.drop_drop] at hx
    exact List.mem_of_mem_drop hx
  rw [hdrop, List.mem_reverse] at hmem
  simpa using hzeros x hmem

/-! ### The lengths of words for lengths -/

namespace Inflate

theorem takes_codeLengths (order : List Nat) {lengths : List Nat} (acc : Array Nat)
    (horder : lengths.length ≤ order.length) (hlengths : ∀ l ∈ lengths, l < 2 ^ 3) :
    Takes (codeLengths order lengths.length acc) (lengths.flatMap (lowBits 3))
      ((order.zip lengths).foldl (fun acc p => acc.setIfInBounds p.1 p.2) acc) := by
  induction lengths generalizing order acc with
  | nil =>
    intro s offset rest hs
    rw [List.length_nil, codeLengths, List.zip_nil_right]
    exact ⟨s, rfl, hs⟩
  | cons l lengths ih =>
    cases order with
    | nil => simp at horder
    | cons symbol order =>
      intro s offset rest hs
      rw [List.flatMap_cons, List.append_assoc] at hs
      obtain ⟨s₁, h₁, hs₁⟩ := takes_take (hlengths l List.mem_cons_self) s offset _ hs
      obtain ⟨s₂, h₂, hs₂⟩ := ih order (acc.setIfInBounds symbol l) (by simpa using horder)
        (fun k hk => hlengths k (List.mem_cons_of_mem l hk)) s₁ _ rest hs₁
      refine ⟨s₂, ?_, ?_⟩
      · simp only [List.length_cons, codeLengths, h₁, h₂, List.zip_cons_cons, List.foldl_cons]
      · rwa [List.flatMap_cons, List.length_append, ← Nat.add_assoc]

theorem zip_take_map (f : Nat → Nat) (l : List Nat) (m : Nat) :
    l.zip ((l.map f).take m) = (l.take m).map fun i => (i, f i) := by
  induction l generalizing m with
  | nil => simp
  | cons i l ih =>
    cases m with
    | zero => simp
    | succ m => simp [ih]

/-- The lengths are all there again, zero where none was given. -/
theorem foldl_zip_trimmed {lengths : List Nat} (hlengths : lengths.length = 19) :
    ((lengthCodeOrder.zip (trimmed 4 (lengthCodeOrder.map fun symbol => lengths.getD symbol 0))).foldl
      (fun acc p => acc.setIfInBounds p.1 p.2) (Array.replicate 19 0)).toList = lengths := by
  obtain ⟨m, htrimmed, hzero⟩ := exists_trimmed_eq 4
    (lengthCodeOrder.map fun symbol => lengths.getD symbol 0)
  rw [htrimmed, zip_take_map, List.foldl_map]
  apply List.ext_getElem?
  intro j
  rw [Array.getElem?_toList]
  by_cases hj : j < 19
  · rw [getElem?_foldl_set _ _ _ _ (by simpa using hj)]
    have hget : lengths[j]? = some (lengths.getD j 0) := by
      simp [hlengths, hj]
    by_cases hgiven : j ∈ lengthCodeOrder.take m
    · rw [if_pos hgiven, hget]
    · have horder : ∀ k < 19, k ∈ lengthCodeOrder := by decide
      have hmem := horder j hj
      rw [← List.take_append_drop m lengthCodeOrder, List.mem_append] at hmem
      have hleft := hmem.resolve_left hgiven
      have hvalue := hzero (lengths.getD j 0) (by
        rw [← List.map_drop]
        exact List.mem_map_of_mem hleft)
      rw [if_neg hgiven, hget, hvalue]
      simp [hj]
  · rw [Array.getElem?_eq_none, List.getElem?_eq_none (by omega)]
    rw [size_foldl_set (fun i : Nat => i) fun i => lengths.getD i 0]
    simpa using hj

/-! ### Runs -/

/-- A length for itself. -/
theorem wordLengths_of_length {code : Huffman} {n symbol : Nat} {acc : List Nat} {s s₁ : BitSource}
    (hn : n ≠ 0) (h : code.decode s = .ok (symbol, s₁)) (hsymbol : symbol < 16) :
    wordLengths code n acc s = wordLengths code (n - 1) (symbol :: acc) s₁ := by
  conv => lhs; rw [wordLengths, if_neg hn]
  split <;> rename_i h' <;> rw [h] at h' <;> simp at h'
  obtain ⟨rfl, rfl⟩ := h'
  rw [if_pos hsymbol]

/-- A repetition. -/
theorem wordLengths_of_repetition {code : Huffman} {n symbol l base extra more : Nat}
    {acc : List Nat} {s s₁ s₂ : BitSource} (hn : n ≠ 0) (h : code.decode s = .ok (symbol, s₁))
    (hsymbol : ¬ symbol < 16) (hrepeat : repetition symbol acc = some (l, base, extra))
    (hmore : s₁.take extra = .ok (more, s₂)) (hroom : ¬ n < base + more) :
    wordLengths code n acc s =
      wordLengths code (n - (base + more)) (List.replicate (base + more) l ++ acc) s₂ := by
  conv => lhs; rw [wordLengths, if_neg hn]
  split <;> rename_i h' <;> rw [h] at h' <;> simp at h'
  obtain ⟨rfl, rfl⟩ := h'
  rw [if_neg hsymbol]
  simp only [hrepeat]
  split <;> rename_i h' <;> rw [hmore] at h' <;> simp at h'
  obtain ⟨rfl, rfl⟩ := h'
  rw [if_neg hroom]

/-- After the lengths in `acc`, the last one first, the tokens are read as the given lengths. -/
def Runs (code : Huffman) (tokens : List LengthToken) (acc lengths : List Nat) : Prop :=
  (∀ t ∈ tokens, (code.wordTable 19).getD t.symbol [] ≠ []) →
    ∀ s offset rest n, At s offset
        ((tokens.flatMap fun t => (code.wordTable 19).getD t.symbol [] ++ t.extra) ++ rest) →
      lengths.length ≤ n →
        ∃ s', wordLengths code n acc s =
            wordLengths code (n - lengths.length) (lengths.reverse ++ acc) s' ∧
          At s' (offset +
            (tokens.flatMap fun t => (code.wordTable 19).getD t.symbol [] ++ t.extra).length) rest

variable {code : Huffman} {acc : List Nat}

theorem Runs.nil : Runs code [] acc [] :=
  fun _ s _ _ _ hs _ => ⟨s, rfl, hs⟩

theorem Runs.append {ts us : List LengthToken} {ls ms : List Nat} (ht : Runs code ts acc ls)
    (hu : Runs code us (ls.reverse ++ acc) ms) : Runs code (ts ++ us) acc (ls ++ ms) := by
  intro hwords s offset rest n hs hn
  rw [List.flatMap_append, List.append_assoc] at hs
  rw [List.length_append] at hn
  obtain ⟨s₁, h₁, hs₁⟩ := ht (fun t h => hwords t (List.mem_append_left us h)) s offset _ n hs
    (by omega)
  obtain ⟨s₂, h₂, hs₂⟩ := hu (fun t h => hwords t (List.mem_append_right ts h)) s₁ _ rest
    (n - ls.length) hs₁ (by omega)
  refine ⟨s₂, ?_, ?_⟩
  · rw [h₁, h₂, List.length_append, List.reverse_append, List.append_assoc, Nat.sub_sub]
  · rwa [List.flatMap_append, List.length_append, ← Nat.add_assoc]

theorem runs_length {l : Nat} (hl : l < 16) : Runs code [⟨l, []⟩] acc [l] := by
  intro hwords s offset rest n hs hn
  have hword := hwords _ (List.mem_singleton_self _)
  simp only [List.flatMap_singleton, List.append_nil] at hs ⊢
  obtain ⟨s₁, h₁, hs₁⟩ := Huffman.takes_word hword s offset rest hs
  refine ⟨s₁, ?_, hs₁⟩
  rw [List.length_singleton] at hn
  exact wordLengths_of_length (by omega) h₁ hl

theorem runs_repetition (code : Huffman) (acc : List Nat) (symbol k : Nat) {l base extra : Nat}
    (hsymbol : ¬ symbol < 16)
    (hrepeat : repetition symbol acc = some (l, base, extra)) (hbase : 0 < base)
    (hk : k < 2 ^ extra) :
    Runs code [⟨symbol, lowBits extra k⟩] acc (List.replicate (base + k) l) := by
  intro hwords s offset rest n hs hn
  have hword := hwords _ (List.mem_singleton_self _)
  simp only [List.flatMap_singleton, List.append_assoc] at hs ⊢
  obtain ⟨s₁, h₁, hs₁⟩ := Huffman.takes_word hword s offset _ hs
  obtain ⟨s₂, h₂, hs₂⟩ := takes_take hk s₁ _ rest hs₁
  rw [Nat.add_assoc, ← List.length_append] at hs₂
  refine ⟨s₂, ?_, hs₂⟩
  rw [List.length_replicate] at hn ⊢
  rw [wordLengths_of_repetition (by omega) h₁ hsymbol hrepeat h₂ (by omega),
    List.reverse_replicate]

/-! ### The runs of a list of lengths -/

theorem runs_replicate {l : Nat} (hl : l < 16) (n : Nat) :
    Runs code (List.replicate n ⟨l, []⟩) acc (List.replicate n l) := by
  induction n generalizing acc with
  | zero => exact Runs.nil
  | succ n ih => exact (runs_length hl).append ih

theorem runs_zeros (code : Huffman) (acc : List Nat) (n : Nat) :
    Runs code (zeroRun n) acc (List.replicate n 0) := by
  induction n using Nat.strongRecOn generalizing acc with
  | ind n ih =>
    unfold zeroRun
    split
    · rename_i hn
      unfold maxZeros at hn ⊢
      have hfull := runs_repetition code acc 18 (138 - 11) (by omega) rfl (by omega) (by decide)
      have hall := hfull.append (ih (n - 138) (by omega) _)
      rwa [List.replicate_append_replicate, show 11 + (138 - 11) + (n - 138) = n by omega] at hall
    split
    · rename_i hn hlow
      unfold maxZeros at hn
      have hall := runs_repetition code acc 18 (n - 11) (by omega) rfl (by omega) (by omega)
      rwa [Nat.add_sub_cancel' hlow] at hall
    split
    · rename_i hlow
      have hall := runs_repetition code acc 17 (n - 3) (by omega) rfl (by omega) (by omega)
      rwa [Nat.add_sub_cancel' hlow] at hall
    · exact runs_replicate (by omega) n

theorem runs_repeat (code : Huffman) {acc : List Nat} {l : Nat} (n : Nat) (hl : l < 16)
    (hacc : acc.head? = some l) :
    Runs code (repeatRun l n) acc (List.replicate n l) := by
  induction n using Nat.strongRecOn generalizing acc with
  | ind n ih =>
    have hrepeat : repetition 16 acc = some (l, 3, 2) := by
      rw [repetition, if_pos rfl, hacc]
      rfl
    unfold repeatRun
    split
    · rename_i hn
      unfold maxRepeats at hn ⊢
      have hfull := runs_repetition code acc 16 (6 - 3) (by omega) hrepeat
        (by omega) (by decide)
      have hall := hfull.append (ih (n - 6) (by omega) (by simp [List.replicate]))
      rwa [List.replicate_append_replicate, show 3 + (6 - 3) + (n - 6) = n by omega] at hall
    split
    · rename_i hn hlow
      unfold maxRepeats at hn
      have hall := runs_repetition code acc 16 (n - 3) (by omega) hrepeat
        (by omega) (by omega)
      rwa [Nat.add_sub_cancel' hlow] at hall
    · exact runs_replicate hl n

theorem eq_replicate_of_isChain {l : Nat} {rest : List Nat}
    (h : (l :: rest).IsChain fun a b => a == b) : rest = List.replicate rest.length l := by
  induction rest generalizing l with
  | nil => rfl
  | cons k rest ih =>
    rw [List.isChain_cons_cons, beq_iff_eq] at h
    obtain ⟨rfl, h⟩ := h
    rw [List.length_cons, List.replicate_succ, ← ih h]

/-- A list of lengths is read back from its runs. -/
theorem runs_lengthTokens (code : Huffman) (acc : List Nat) {lengths : List Nat}
    (hlengths : ∀ l ∈ lengths, l < 16) :
    Runs code (lengthTokens lengths) acc lengths := by
  have hchain : ∀ run ∈ lengths.splitBy (· == ·), run.IsChain fun a b => a == b :=
    fun run h => List.isChain_of_mem_splitBy h
  have hflatten : (lengths.splitBy (· == ·)).flatten = lengths := List.flatten_splitBy _ _
  unfold lengthTokens
  rw [← hflatten] at hlengths
  conv => arg 4; rw [← hflatten]
  generalize lengths.splitBy (· == ·) = runs at hchain hlengths
  induction runs generalizing acc with
  | nil => exact Runs.nil
  | cons run runs ih =>
    rw [List.flatMap_cons, List.flatten_cons]
    refine Runs.append ?_ (ih _ ?_ ?_)
    · rcases run with _ | ⟨_ | l, rest⟩
      · exact Runs.nil
      · have hrest := eq_replicate_of_isChain (hchain _ List.mem_cons_self)
        have hzeros := runs_zeros code acc (rest.length + 1)
        rwa [List.replicate_succ, ← hrest] at hzeros
      · have hrest := eq_replicate_of_isChain (hchain _ List.mem_cons_self)
        have hl : l + 1 < 16 := hlengths _ (by simp)
        have hrepeat : Runs code _ ((l + 1) :: acc) _ := runs_repeat code rest.length hl rfl
        rw [← hrest] at hrepeat
        exact (runs_length hl).append hrepeat
    · exact fun run h => hchain run (List.mem_cons_of_mem _ h)
    · exact fun l h => hlengths l (by simp_all)

end Inflate

end MinecraftWire.Zlib
