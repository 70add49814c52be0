import MinecraftWire.Proofs.Nbt.Form

/-! Kinds at paths. A path leads through fields by their names and through lists by whichever of
their elements; what kinds a tree has at the ends of its paths can be listed, so it can be decided
whether two trees contradict each other anywhere. -/

namespace MinecraftWire.Nbt

/-- A step from a container to what is in it. The elements of a list are not told apart. -/
inductive Step where
  | field (name : String)
  | item
  deriving DecidableEq

namespace Tag

/-- At the end of the path, through whichever elements it leads, there is a tag of the kind. An
empty list that declares a kind counts as having an element of it. -/
inductive HasKindAt : Tag → List Step → TagKind → Prop where
  | here (t : Tag) : t.HasKindAt [] t.kind
  | field {entries : List (String × Tag)} {name : String} {t : Tag} {path : List Step}
      {kind : TagKind} (hentry : (name, t) ∈ entries) (h : t.HasKindAt path kind) :
      (compound entries).HasKindAt (.field name :: path) kind
  | item {element : TagKind} {items : List Tag} {t : Tag} {path : List Step} {kind : TagKind}
      (hitem : t ∈ items) (h : t.HasKindAt path kind) :
      (list element items).HasKindAt (.item :: path) kind
  | declared {element : TagKind} (h : element ≠ .endMark) :
      (list element []).HasKindAt [.item] element

/-! ### All kinds of a tree -/

/-- What an empty list declares of its elements. -/
def declaredKinds (element : TagKind) (items : List Tag) : List (List Step × TagKind) :=
  if items = [] ∧ element ≠ .endMark then [([.item], element)] else []

mutual

/-- Every path of a tree with a kind at its end. -/
def kinds : Tag → List (List Step × TagKind)
  | list element items => ([], .list) :: (declaredKinds element items ++ kindsItems items)
  | compound entries => ([], .compound) :: kindsEntries entries
  | t => [([], t.kind)]
termination_by structural t => t

def kindsItems : List Tag → List (List Step × TagKind)
  | [] => []
  | t :: items => t.kinds.map (fun e => (.item :: e.1, e.2)) ++ kindsItems items
termination_by structural items => items

def kindsEntries : List (String × Tag) → List (List Step × TagKind)
  | [] => []
  | (name, t) :: entries => t.kinds.map (fun e => (.field name :: e.1, e.2)) ++ kindsEntries entries
termination_by structural entries => entries

end

theorem mem_map_step {step : Step} {kinds : List (List Step × TagKind)} {path : List Step}
    {kind : TagKind} : (path, kind) ∈ kinds.map (fun e => (step :: e.1, e.2)) ↔
      ∃ rest, path = step :: rest ∧ (rest, kind) ∈ kinds := by
  simp only [List.mem_map, Prod.mk.injEq, Prod.exists]
  constructor
  · rintro ⟨rest, k, hmem, rfl, rfl⟩
    exact ⟨rest, rfl, hmem⟩
  · rintro ⟨rest, rfl, hmem⟩
    exact ⟨rest, kind, hmem, rfl, rfl⟩

theorem mem_kinds_scalar {t : Tag} (hchildren : t.children = []) (hlist : t.kind ≠ .list)
    {path : List Step} {kind : TagKind} :
    (path, kind) ∈ [([], t.kind)] ↔ t.HasKindAt path kind := by
  rw [List.mem_singleton, Prod.mk.injEq]
  constructor
  · rintro ⟨rfl, rfl⟩
    exact .here t
  · intro h
    cases h with
    | here => exact ⟨rfl, rfl⟩
    | field hentry _ =>
      obtain rfl := List.map_eq_nil_iff.mp hchildren
      contradiction
    | item _ _ => exact absurd rfl hlist
    | declared _ => exact absurd rfl hlist

mutual

theorem mem_kinds (t : Tag) {path : List Step} {kind : TagKind} :
    (path, kind) ∈ t.kinds ↔ t.HasKindAt path kind := by
  cases t with
  | list element items =>
    rw [kinds, List.mem_cons, List.mem_append, mem_kindsItems items, Prod.mk.injEq]
    constructor
    · rintro (⟨rfl, rfl⟩ | hdeclared | ⟨t, ht, rest, rfl, h⟩)
      · exact .here _
      · rw [declaredKinds] at hdeclared
        split at hdeclared
        · rename_i hempty
          obtain ⟨rfl, hend⟩ := hempty
          obtain ⟨rfl, rfl⟩ := Prod.mk.inj (List.mem_singleton.mp hdeclared)
          exact .declared hend
        · contradiction
      · exact .item ht h
    · intro h
      cases h with
      | here => exact .inl ⟨rfl, rfl⟩
      | item hitem h => exact .inr (.inr ⟨_, hitem, _, rfl, h⟩)
      | declared hend =>
        refine .inr (.inl ?_)
        rw [declaredKinds, if_pos ⟨rfl, hend⟩]
        exact List.mem_cons_self
  | compound entries =>
    rw [kinds, List.mem_cons, mem_kindsEntries entries, Prod.mk.injEq]
    constructor
    · rintro (⟨rfl, rfl⟩ | ⟨e, he, rest, rfl, h⟩)
      · exact .here _
      · exact .field he h
    · intro h
      cases h with
      | here => exact .inl ⟨rfl, rfl⟩
      | field hentry h => exact .inr ⟨_, hentry, _, rfl, h⟩
  | _ => exact mem_kinds_scalar rfl (by simp [Tag.kind])
termination_by structural t

theorem mem_kindsItems (items : List Tag) {path : List Step} {kind : TagKind} :
    (path, kind) ∈ kindsItems items ↔
      ∃ t ∈ items, ∃ rest, path = .item :: rest ∧ t.HasKindAt rest kind := by
  cases items with
  | nil => simp [kindsItems]
  | cons t items =>
    rw [kindsItems, List.mem_append, mem_map_step, mem_kindsItems items]
    simp only [mem_kinds t, List.mem_cons, exists_eq_or_imp]
termination_by structural items

theorem mem_kindsEntries (entries : List (String × Tag)) {path : List Step} {kind : TagKind} :
    (path, kind) ∈ kindsEntries entries ↔
      ∃ e ∈ entries, ∃ rest, path = .field e.1 :: rest ∧ e.2.HasKindAt rest kind := by
  cases entries with
  | nil => simp [kindsEntries]
  | cons e entries =>
    obtain ⟨name, t⟩ := e
    rw [kindsEntries, List.mem_append, mem_map_step, mem_kindsEntries entries]
    simp only [mem_kinds t, List.mem_cons, exists_eq_or_imp]
termination_by structural entries

end

/-! ### Agreement -/

/-- Wherever both trees have a tag, the kinds are the same. -/
def Alike (t u : Tag) : Prop :=
  ∀ path k k', t.HasKindAt path k → u.HasKindAt path k' → k = k'

theorem alike_iff {t u : Tag} :
    t.Alike u ↔ ∀ a ∈ t.kinds, ∀ b ∈ u.kinds, a.1 = b.1 → a.2 = b.2 := by
  constructor
  · rintro h ⟨path, k⟩ ha ⟨_, k'⟩ hb rfl
    exact h path k k' ((mem_kinds t).mp ha) ((mem_kinds u).mp hb)
  · intro h path k k' hk hk'
    exact h _ ((mem_kinds t).mpr hk) _ ((mem_kinds u).mpr hk') rfl

instance : DecidableRel Alike := fun t u =>
  decidable_of_iff (∀ a ∈ t.kinds, ∀ b ∈ u.kinds, a.1 = b.1 → a.2 = b.2) alike_iff.symm

/-- The elements of a list are alike. -/
def Uniform : Tag → Prop
  | list _ items => items.Pairwise Alike
  | _ => True

instance : DecidablePred Uniform := fun t =>
  match t with
  | list _ items => inferInstanceAs (Decidable (items.Pairwise Alike))
  | endMark | byte _ | short _ | int _ | long _ | float _ | double _ | byteArray _ | string _
  | compound _ | intArray _ | longArray _ => .isTrue trivial

end Tag

end MinecraftWire.Nbt
