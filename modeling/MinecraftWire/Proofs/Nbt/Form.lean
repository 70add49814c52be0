import MinecraftWire.Nbt.Writer

/-! The binary form of a tree by recursion on the tree, and the limits within which it exists. -/

namespace MinecraftWire.Nbt

/-! ### Trees -/

namespace Tag

/-- The tags directly inside a container. -/
def children : Tag → List Tag
  | list _ items => items
  | compound entries => entries.map Prod.snd
  | _ => []

/-- The tag and every tag inside it have a property. -/
inductive All (P : Tag → Prop) : Tag → Prop where
  | node {t : Tag} (here : P t) (inside : ∀ u ∈ t.children, All P u) : All P t

theorem All.here {P : Tag → Prop} {t : Tag} (h : t.All P) : P t := by
  cases h
  assumption

theorem All.child {P : Tag → Prop} {t u : Tag} (h : t.All P) (hu : u ∈ t.children) : u.All P := by
  cases h with
  | node _ inside => exact inside u hu

theorem All.item {P : Tag → Prop} {kind : TagKind} {items : List Tag} {u : Tag}
    (h : (list kind items).All P) (hu : u ∈ items) : u.All P :=
  h.child hu

theorem All.entry {P : Tag → Prop} {entries : List (String × Tag)} {e : String × Tag}
    (h : (compound entries).All P) (he : e ∈ entries) : e.2.All P :=
  h.child (List.mem_map_of_mem he)

theorem All.mono {P Q : Tag → Prop} (hPQ : ∀ t, P t → Q t) {t : Tag} (h : t.All P) :
    t.All Q := by
  induction h with
  | node here _ ih => exact .node (hPQ _ here) ih

theorem all_iff {P : Tag → Prop} {t : Tag} : t.All P ↔ P t ∧ ∀ u ∈ t.children, u.All P :=
  ⟨fun h => ⟨h.here, fun _ hu => h.child hu⟩, fun h => .node h.1 h.2⟩

theorem all_iff_of_children_nil {P : Tag → Prop} {t : Tag} (h : t.children = []) :
    t.All P ↔ P t := by
  rw [all_iff, h]
  exact and_iff_left (List.forall_mem_nil _)

section Decidable

variable (P : Tag → Prop) [DecidablePred P]

mutual

def decidableAll : (t : Tag) → Decidable (t.All P)
  | list kind items =>
    have := decidableItems items
    decidable_of_iff (P (list kind items) ∧ ∀ u ∈ items, u.All P) all_iff.symm
  | compound entries =>
    have := decidableEntries entries
    decidable_of_iff (P (compound entries) ∧ ∀ u ∈ entries.map Prod.snd, u.All P) all_iff.symm
  | endMark | byte _ | short _ | int _ | long _ | float _ | double _ | byteArray _ | string _
  | intArray _ | longArray _ => decidable_of_iff _ (all_iff_of_children_nil rfl).symm
termination_by structural t => t

def decidableItems : (items : List Tag) → Decidable (∀ u ∈ items, u.All P)
  | [] => .isTrue (List.forall_mem_nil _)
  | t :: items =>
    have := decidableAll t
    have := decidableItems items
    decidable_of_iff (t.All P ∧ ∀ u ∈ items, u.All P) List.forall_mem_cons.symm
termination_by structural items => items

def decidableEntries : (entries : List (String × Tag)) →
    Decidable (∀ u ∈ entries.map Prod.snd, u.All P)
  | [] => .isTrue (List.forall_mem_nil _)
  | (_, t) :: entries =>
    have := decidableAll t
    have := decidableEntries entries
    decidable_of_iff (t.All P ∧ ∀ u ∈ entries.map Prod.snd, u.All P) List.forall_mem_cons.symm
termination_by structural entries => entries

end

instance : DecidablePred (All P) :=
  decidableAll P

end Decidable

/-- The rules for containers. All elements of a list are of its kind; the children of a compound have
names, and no two the same; neither holds end marks. -/
def Legal : Tag → Prop
  | list kind items => ∀ t ∈ items, t.kind = kind ∧ t.kind ≠ .endMark
  | compound entries =>
    (entries.map Prod.fst).Nodup ∧ ∀ e ∈ entries, e.1 ≠ "" ∧ e.2.kind ≠ .endMark
  | _ => True

/-- No length is greater than what the binary form can tell. -/
def Fits : Tag → Prop
  | byteArray vs => vs.length ≤ maxElements
  | string s => s.utf8ByteSize ≤ maxTextBytes
  | list _ items => items.length ≤ maxElements
  | compound entries => ∀ e ∈ entries, e.1.utf8ByteSize ≤ maxTextBytes
  | intArray vs => vs.length ≤ maxElements
  | longArray vs => vs.length ≤ maxElements
  | _ => True

instance : DecidablePred Legal := fun t =>
  match t with
  | list kind items => inferInstanceAs (Decidable (∀ t ∈ items, t.kind = kind ∧ t.kind ≠ .endMark))
  | compound entries => inferInstanceAs (Decidable ((entries.map Prod.fst).Nodup ∧
      ∀ e ∈ entries, e.1 ≠ "" ∧ e.2.kind ≠ .endMark))
  | endMark | byte _ | short _ | int _ | long _ | float _ | double _ | byteArray _ | string _
  | intArray _ | longArray _ => .isTrue trivial

instance : DecidablePred Fits := fun t =>
  match t with
  | byteArray vs => inferInstanceAs (Decidable (vs.length ≤ maxElements))
  | string s => inferInstanceAs (Decidable (s.utf8ByteSize ≤ maxTextBytes))
  | list _ items => inferInstanceAs (Decidable (items.length ≤ maxElements))
  | compound entries => inferInstanceAs (Decidable (∀ e ∈ entries, e.1.utf8ByteSize ≤ maxTextBytes))
  | intArray vs => inferInstanceAs (Decidable (vs.length ≤ maxElements))
  | longArray vs => inferInstanceAs (Decidable (vs.length ≤ maxElements))
  | endMark | byte _ | short _ | int _ | long _ | float _ | double _ => .isTrue trivial

mutual

/-- How deep containers nest in a tree. -/
def depth : Tag → Nat
  | list _ items => depthItems items + 1
  | compound entries => depthEntries entries + 1
  | _ => 0
termination_by structural t => t

def depthItems : List Tag → Nat
  | [] => 0
  | t :: items => max t.depth (depthItems items)
termination_by structural ts => ts

def depthEntries : List (String × Tag) → Nat
  | [] => 0
  | (_, t) :: entries => max t.depth (depthEntries entries)
termination_by structural es => es

end

theorem depthItems_le {items : List Tag} {room : Nat} (h : ∀ t ∈ items, t.depth ≤ room) :
    depthItems items ≤ room := by
  induction items with
  | nil => exact Nat.zero_le room
  | cons t items ih =>
    rw [List.forall_mem_cons] at h
    exact Nat.max_le.mpr ⟨h.1, ih h.2⟩

theorem depthEntries_le {entries : List (String × Tag)} {room : Nat}
    (h : ∀ e ∈ entries, e.2.depth ≤ room) : depthEntries entries ≤ room := by
  induction entries with
  | nil => exact Nat.zero_le room
  | cons e entries ih =>
    rw [List.forall_mem_cons] at h
    exact Nat.max_le.mpr ⟨h.1, ih h.2⟩

/-! ### Forms -/

def textForm (s : String) : Bytes :=
  FixedWidth.put (Int16.ofNat s.utf8ByteSize) ++ Utf8.encode s

def countForm (n : Nat) : Bytes :=
  FixedWidth.put (Int32.ofNat n)

def arrayForm {α : Type} [FixedWidth α] (vs : List α) : Bytes :=
  countForm vs.length ++ vs.flatMap FixedWidth.put

/-- The kind that a list has in its form. -/
def formKind (kind : TagKind) (items : List Tag) : TagKind :=
  if items.isEmpty then .endMark else kind

theorem formKind_of_mem {kind : TagKind} {items : List Tag} {t : Tag} (h : t ∈ items) :
    formKind kind items = kind := by
  rw [formKind, List.isEmpty_eq_false_iff.mpr (List.ne_nil_of_mem h)]
  rfl

def listHeadingForm (kind : TagKind) (items : List Tag) : Bytes :=
  (formKind kind items).id :: countForm items.length

mutual

/-- The payload of a tag. -/
def form : Tag → Bytes
  | endMark => []
  | byte v => FixedWidth.put v
  | short v => FixedWidth.put v
  | int v => FixedWidth.put v
  | long v => FixedWidth.put v
  | float v => FixedWidth.put v
  | double v => FixedWidth.put v
  | byteArray vs => arrayForm vs
  | string s => textForm s
  | list kind items => listHeadingForm kind items ++ formItems items
  | compound entries => formEntries entries
  | intArray vs => arrayForm vs
  | longArray vs => arrayForm vs
termination_by structural t => t

def formItems : List Tag → Bytes
  | [] => []
  | t :: items => t.form ++ formItems items
termination_by structural ts => ts

/-- Kind, name and payload of each child, and an end mark. -/
def formEntries : List (String × Tag) → Bytes
  | [] => [TagKind.endMark.id]
  | (name, t) :: entries => t.kind.id :: textForm name ++ t.form ++ formEntries entries
termination_by structural es => es

end

end Tag

/-- Kind, name and payload of a root. An end mark stands alone. -/
def Root.form (header : Header) (root : Root) : Bytes :=
  if root.tag.kind = .endMark then [TagKind.endMark.id]
  else
    match header with
    | .named => root.tag.kind.id :: Tag.textForm (root.name.getD "") ++ root.tag.form
    | .unnamed => root.tag.kind.id :: root.tag.form

end MinecraftWire.Nbt
