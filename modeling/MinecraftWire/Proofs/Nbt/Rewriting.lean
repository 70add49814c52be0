import MinecraftWire.Proofs.Nbt.Spelling

/-! Writing what was read. The form of a tree differs from its spelling at the type bytes of its
empty lists and nowhere else, by recursion on the tree; so a document that is read and written again
keeps its length and every byte but those. -/

namespace MinecraftWire.Nbt

open Tag

/-! ### Where empty lists stand -/

namespace Tag

mutual

/-- Where the type byte of each empty list stands, and the kind it declares, in a payload that
starts at `place`. -/
def emptyLists (place : Nat) : Tag → List (Nat × TagKind)
  | list kind items => if items.isEmpty then [(place, kind)] else emptyListsItems (place + 5) items
  | compound entries => emptyListsEntries place entries
  | _ => []
termination_by structural t => t

def emptyListsItems (place : Nat) : List Tag → List (Nat × TagKind)
  | [] => []
  | t :: items => t.emptyLists place ++ emptyListsItems (place + t.spelling.length) items
termination_by structural ts => ts

def emptyListsEntries (place : Nat) : List (String × Tag) → List (Nat × TagKind)
  | [] => []
  | (name, t) :: entries =>
    let payload := place + (t.kind.id :: textForm name).length
    t.emptyLists payload ++ emptyListsEntries (payload + t.spelling.length) entries
termination_by structural es => es

end

end Tag

/-- The empty lists of a document, in the order of the document. -/
def Root.emptyLists (root : Root) : List (Nat × TagKind) :=
  root.tag.emptyLists (root.tag.kind.id :: textForm (root.name.getD "")).length

/-! ### Cleared type bytes -/

/-- What is written is as long as what was read. It is the same but for the type bytes of empty
lists, which are those of end marks. -/
structure Cleared (empties : List (Nat × TagKind)) (start : Nat) (read written : Bytes) : Prop where
  length_eq : written.length = read.length
  at_empty : ∀ e ∈ empties, ∃ front back, e.1 = start + front.length ∧
    read = front ++ (e.2.id :: countForm 0 ++ back) ∧
    written[front.length]? = some TagKind.endMark.id
  elsewhere : ∀ i, (∀ e ∈ empties, e.1 ≠ start + i) → written[i]? = read[i]?

namespace Cleared

variable {empties empties' : List (Nat × TagKind)} {start : Nat} {read written read' written' : Bytes}

theorem refl (bytes : Bytes) (start : Nat) : Cleared [] start bytes bytes where
  length_eq := rfl
  at_empty := List.forall_mem_nil _
  elsewhere _ _ := rfl

theorem heading (kind : TagKind) (start : Nat) :
    Cleared [(start, kind)] start (kind.id :: countForm 0) (TagKind.endMark.id :: countForm 0) where
  length_eq := rfl
  at_empty e he := by
    obtain rfl := List.mem_singleton.mp he
    exact ⟨[], [], rfl, rfl, rfl⟩
  elsewhere i hi := by
    cases i with
    | zero => exact absurd rfl (hi _ List.mem_cons_self)
    | succ i => rfl

theorem append (h : Cleared empties start read written)
    (h' : Cleared empties' (start + read.length) read' written') :
    Cleared (empties ++ empties') start (read ++ read') (written ++ written') where
  length_eq := by rw [List.length_append, List.length_append, h.length_eq, h'.length_eq]
  at_empty e he := by
    rcases List.mem_append.mp he with he | he
    · obtain ⟨front, back, hplace, rfl, hmark⟩ := h.at_empty e he
      have hlt : front.length < written.length := (List.getElem?_eq_some_iff.mp hmark).1
      refine ⟨front, back ++ read', hplace, by simp, ?_⟩
      rw [List.getElem?_append_left hlt, hmark]
    · obtain ⟨front, back, hplace, rfl, hmark⟩ := h'.at_empty e he
      refine ⟨read ++ front, back, by rw [List.length_append]; omega, by simp, ?_⟩
      rw [List.length_append, ← h.length_eq, List.getElem?_append_right (Nat.le_add_right _ _),
        Nat.add_sub_cancel_left, hmark]
  elsewhere i hi := by
    rcases Nat.lt_or_ge i read.length with hlt | hle
    · rw [List.getElem?_append_left hlt, List.getElem?_append_left (h.length_eq ▸ hlt)]
      exact h.elsewhere i fun e he => hi e (List.mem_append_left _ he)
    · rw [List.getElem?_append_right hle, List.getElem?_append_right (h.length_eq ▸ hle),
        h.length_eq]
      refine h'.elsewhere _ fun e he hplace => hi e (List.mem_append_right _ he) ?_
      omega

/-- Bytes before both shift the empty lists. -/
theorem behind (bytes : Bytes) (h : Cleared empties (start + bytes.length) read written) :
    Cleared empties start (bytes ++ read) (bytes ++ written) :=
  (refl bytes start).append h

theorem take_read (h : Cleared empties 0 read written) {e : Nat × TagKind} (he : e ∈ empties) :
    (read.drop e.1).take 5 = [e.2.id, 0, 0, 0, 0] := by
  obtain ⟨front, back, hplace, rfl, -⟩ := h.at_empty e he
  rw [hplace, Nat.zero_add, List.drop_left]
  rfl

theorem getElem?_read (h : Cleared empties 0 read written) {e : Nat × TagKind} (he : e ∈ empties) :
    read[e.1]? = some e.2.id := by
  obtain ⟨front, back, hplace, rfl, -⟩ := h.at_empty e he
  rw [hplace, Nat.zero_add, List.getElem?_append_right (Nat.le_refl _), Nat.sub_self]
  rfl

theorem getElem?_written (h : Cleared empties 0 read written) (i : Nat) :
    written[i]? = if i ∈ empties.map Prod.fst then some 0 else read[i]? := by
  by_cases hi : i ∈ empties.map Prod.fst
  · obtain ⟨e, he, rfl⟩ := List.mem_map.mp hi
    obtain ⟨front, back, hplace, -, hmark⟩ := h.at_empty e he
    rw [if_pos hi, hplace, Nat.zero_add, hmark]
    rfl
  · rw [if_neg hi]
    apply h.elsewhere
    intro e he hplace
    rw [Nat.zero_add] at hplace
    exact hi (List.mem_map.mpr ⟨e, he, hplace⟩)

/-- Nothing changes just when every empty list declares end marks. -/
theorem eq_iff (h : Cleared empties 0 read written) :
    (∀ e ∈ empties, e.2 = .endMark) ↔ written = read := by
  constructor
  · intro hend
    apply List.ext_getElem?
    intro i
    rw [h.getElem?_written]
    split
    · rename_i hi
      obtain ⟨e, he, rfl⟩ := List.mem_map.mp hi
      rw [h.getElem?_read he, hend e he]
      rfl
    · rfl
  · rintro rfl e he
    have hmark := h.getElem?_written e.1
    rw [if_pos (List.mem_map_of_mem he), h.getElem?_read he] at hmark
    have hkind := TagKind.ofId?_id e.2
    rw [Option.some.inj hmark] at hkind
    exact (Option.some.inj hkind).symm

end Cleared

mutual

theorem cleared_form (t : Tag) (place : Nat) :
    Cleared (t.emptyLists place) place t.spelling t.form := by
  cases t with
  | list kind items =>
    rw [emptyLists, Tag.spelling, form]
    cases items with
    | nil => exact (Cleared.heading kind place).append (.refl [] _)
    | cons t items => exact .behind _ (cleared_items (t :: items) (place + 5))
  | compound entries => exact cleared_entries entries place
  | _ => exact .refl _ place
termination_by structural t

theorem cleared_items (items : List Tag) (place : Nat) :
    Cleared (emptyListsItems place items) place (spellingItems items) (formItems items) := by
  cases items with
  | nil => exact .refl _ place
  | cons t items => exact (cleared_form t place).append (cleared_items items _)
termination_by structural items

theorem cleared_entries (entries : List (String × Tag)) (place : Nat) :
    Cleared (emptyListsEntries place entries) place (spellingEntries entries)
      (formEntries entries) := by
  cases entries with
  | nil => exact .refl _ place
  | cons e entries =>
    obtain ⟨name, t⟩ := e
    rw [emptyListsEntries, spellingEntries, formEntries, List.append_assoc, List.append_assoc]
    exact .behind _ ((cleared_form t _).append (cleared_entries entries _))
termination_by structural entries

end

theorem Root.cleared_form (root : Root) :
    Cleared root.emptyLists 0 root.spelling (root.form .named) := by
  unfold Root.spelling Root.form
  by_cases hkind : root.tag.kind = .endMark
  · rw [if_pos hkind, if_pos hkind]
    obtain ⟨name, t⟩ := root
    cases t with
    | endMark => exact .refl _ 0
    | _ => contradiction
  · rw [if_neg hkind, if_neg hkind]
    refine .behind _ ?_
    rw [Nat.zero_add]
    exact Nbt.cleared_form root.tag _

/-! ### Documents -/

/-- A document that is read can be written again. What is written is as long and holds the same
bytes but for the type byte of each empty list, which stands before a count of zero and becomes that
of end marks; it is the document itself just when every empty list declares end marks. Read once
more it is the tree that was read, up to the kinds of its empty lists. -/
theorem toBytes_of_ofBytes {bytes : Bytes} {root : Root} (h : Root.ofBytes bytes = .ok root) :
    ∃ written, root.toBytes = .ok written ∧ written.length = bytes.length ∧
      (∀ e ∈ root.emptyLists, (bytes.drop e.1).take 5 = [e.2.id, 0, 0, 0, 0]) ∧
      (∀ i, written[i]? = if i ∈ root.emptyLists.map Prod.fst then some 0 else bytes[i]?) ∧
      ((∀ e ∈ root.emptyLists, e.2 = .endMark) ↔ written = bytes) ∧
      Root.ofBytes written = .ok ⟨root.name, root.tag.normal⟩ := by
  obtain ⟨front, hbytes, hfront, hroot⟩ := spells_root _ _ _ (ofBytes_eq_ok_iff.mp h)
  rw [List.append_nil] at hbytes
  subst hbytes hfront
  have hcleared := root.cleared_form
  have hwritten : root.toBytes = .ok (root.form .named) :=
    encode_eq hroot.tag.fits hroot.tag.depth_le hroot.name_fits
  have hread : Root.ofBytes (root.form .named) = .ok ⟨root.name, root.tag.normal⟩ := by
    rw [ofBytes_form hroot.tag.legal hroot.tag.fits hroot.tag.depth_le hroot.name_fits,
      hroot.normal_eq]
  exact ⟨root.form .named, hwritten, hcleared.length_eq, fun e he => hcleared.take_read he,
    hcleared.getElem?_written, hcleared.eq_iff, hread⟩

/-- A list of two empty lists: one of bytes, whose type byte stands at 8, and one of end marks. -/
def emptyListsDocument : Bytes :=
  [9, 0, 0, 9, 0, 0, 0, 2, 1, 0, 0, 0, 0, 0, 0, 0, 0, 0]

theorem toBytes_of_ofBytes_empty_lists :
    Root.ofBytes emptyListsDocument = .ok ⟨none, .list .list [.list .byte [], .list .endMark []]⟩ ∧
      ∃ written, Root.toBytes ⟨none, .list .list [.list .byte [], .list .endMark []]⟩ = .ok written ∧
        (∀ i, written[i]? = if i ∈ [8, 13] then some 0 else emptyListsDocument[i]?) ∧
        written ≠ emptyListsDocument ∧
        Root.ofBytes written = .ok ⟨none, .list .list [.list .endMark [], .list .endMark []]⟩ := by
  have hread : Root.ofBytes emptyListsDocument =
      .ok ⟨none, .list .list [.list .byte [], .list .endMark []]⟩ := by
    rw [ofBytes_eq_ok_iff]
    rfl
  obtain ⟨written, hwritten, -, -, hbytes, hsame, hagain⟩ := toBytes_of_ofBytes hread
  refine ⟨hread, written, hwritten, hbytes, fun heq => ?_, hagain⟩
  exact absurd (hsame.mpr heq (8, .byte) List.mem_cons_self) (by decide)

end MinecraftWire.Nbt
