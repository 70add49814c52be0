import Mathlib.Data.List.Perm.Subperm
import MinecraftWire.Proofs.Nbt.Building
import MinecraftWire.Proofs.Nbt.Conversion

/-! What equality of trees means. A tree has a canonical form, with the children of compounds in the
order of their names and the kinds of empty lists forgotten. Where no compound has two children of
one name and no number is a floating-point one, two trees are equal just when their canonical forms
are the same; so equality is an equivalence, though it compares compounds from one side only. -/

namespace MinecraftWire.Nbt

open Tag

/-! ### Entries by name -/

section Entries

variable {α β : Type} {as bs : List (String × α)}

theorem lookup_map_snd (f : α → β) (name : String) (entries : List (String × α)) :
    (entries.map fun e => (e.1, f e.2)).lookup name = (entries.lookup name).map f := by
  induction entries with
  | nil => rfl
  | cons e entries ih =>
    rw [List.map_cons, lookup_cons_eq_ite, ih, lookup_cons_eq_ite]
    split <;> rfl

theorem map_fst_map_snd (f : α → β) (entries : List (String × α)) :
    (entries.map fun e => (e.1, f e.2)).map Prod.fst = entries.map Prod.fst := by
  rw [List.map_map]
  rfl

/-- One-sided inclusion is enough: as many entries as there are on the other side, each of which is
found there, are the same entries. -/
theorem perm_iff_lookup (has : (as.map Prod.fst).Nodup) (hbs : (bs.map Prod.fst).Nodup) :
    as.Perm bs ↔ as.length = bs.length ∧ ∀ e ∈ as, bs.lookup e.1 = some e.2 := by
  refine ⟨fun h => ⟨h.length_eq, fun e he => ?_⟩, fun ⟨hlength, hlookup⟩ => ?_⟩
  · exact lookup_eq_some_of_mem hbs (h.mem_iff.mp he)
  · have hsubset : as ⊆ bs := fun e he => mem_of_lookup_eq_some (hlookup e he)
    exact (has.of_map.subperm hsubset).perm_of_length_le hlength.ge

theorem pairwise_mergeSort_nameLe (entries : List (String × α)) :
    (entries.mergeSort nameLe).Pairwise fun a b => a.1 ≤ b.1 := by
  have hle (a b : String × α) : nameLe a b = true ↔ a.1 ≤ b.1 := by
    rw [nameLe, Bool.not_eq_true', decide_eq_false_iff_not, String.not_lt]
  refine (List.pairwise_mergeSort (fun a b c hab hbc => ?_) (fun a b => ?_) entries).imp (hle _ _).mp
  · rw [hle] at hab hbc ⊢
    exact String.le_trans hab hbc
  · rw [Bool.or_eq_true, hle, hle]
    exact String.le_total a.1 b.1

/-- Entries with different names have one sorted order. -/
theorem mergeSort_nameLe_eq_iff (has : (as.map Prod.fst).Nodup) :
    as.mergeSort nameLe = bs.mergeSort nameLe ↔ as.Perm bs := by
  have hsorted := as.mergeSort_perm nameLe
  have hsorted' := bs.mergeSort_perm nameLe
  refine ⟨fun h => hsorted.symm.trans (h ▸ hsorted'), fun h => ?_⟩
  have hperm := hsorted.trans (h.trans hsorted'.symm)
  refine hperm.eq_of_pairwise (fun a b ha hb hab hba => ?_) (pairwise_mergeSort_nameLe as)
    (pairwise_mergeSort_nameLe bs)
  have ha' : a ∈ as := hsorted.mem_iff.mp ha
  have hb' : b ∈ as := hsorted.mem_iff.mp (hperm.mem_iff.mpr hb)
  exact List.inj_on_of_nodup_map has ha' hb' (String.le_antisymm hab hba)

end Entries

namespace Tag

/-! ### The canonical form -/

/-- The children of compounds are in the order of their names, and empty lists are lists of end
marks. -/
def canonical (t : Tag) : Tag :=
  t.sorted.normal

theorem canonical_list (kind : TagKind) (items : List Tag) :
    (list kind items).canonical = list (formKind kind items) (items.map canonical) := by
  have hkind : formKind kind (items.map sorted) = formKind kind items := by
    cases items <;> rfl
  rw [canonical, sorted, normal, sortedItems_eq_map, hkind, normalItems_eq_map, List.map_map]
  rfl

theorem canonical_compound (entries : List (String × Tag)) : (compound entries).canonical =
    compound ((entries.map fun e => (e.1, e.2.canonical)).mergeSort nameLe) := by
  rw [canonical, sorted, normal, sortedEntries_eq_map, map_mergeSort_nameLe, normalEntries_eq_map,
    List.map_map, map_mergeSort_nameLe]
  rfl

theorem kind_canonical (t : Tag) : t.canonical.kind = t.kind :=
  (kind_normal t.sorted).trans (kind_sorted t)

theorem canonical_scalar {t : Tag} (hlist : t.kind ≠ .list) (hcompound : t.kind ≠ .compound) :
    t.canonical = t := by
  cases t with
  | list kind items => exact absurd rfl hlist
  | compound entries => exact absurd rfl hcompound
  | _ => rfl

/-! ### Trees that equality tells apart exactly -/

/-- Not a floating-point number, for which equality has a tolerance. -/
def Discrete (t : Tag) : Prop :=
  t.kind ≠ .float ∧ t.kind ≠ .double

instance : DecidablePred Discrete := fun t =>
  inferInstanceAs (Decidable (t.kind ≠ .float ∧ t.kind ≠ .double))

/-- No child of a compound has the name of another. -/
def NamesDiffer : Tag → Prop
  | compound entries => (entries.map Prod.fst).Nodup
  | _ => True

/-- Neither a floating-point number nor a compound with one name twice. -/
structure Exact (t : Tag) : Prop where
  discrete : t.Discrete
  names : t.NamesDiffer

theorem Built.exact {ends : Prop} {t : Tag} (h : t.Built ends) (hdiscrete : t.All Discrete) :
    t.All Exact := by
  have hlegal : t.All (LegalUpTo ends) := h.legalUpTo
  clear h
  induction hdiscrete with
  | @node t here _ ih =>
    refine .node ⟨here, ?_⟩ fun u hu => ih u hu (hlegal.child hu)
    cases t with
    | compound entries => exact hlegal.here.1
    | _ => trivial

/-! ### Equality by canonical forms -/

theorem kind_eq_of_equal {t u : Tag} (h : t.equal u = true) : t.kind = u.kind := by
  unfold equal at h
  split at h <;> first | rfl | contradiction

theorem equal_scalar_iff {t u : Tag} (h : t.Discrete) (hlist : t.kind ≠ .list)
    (hcompound : t.kind ≠ .compound) : t.equal u = true ↔ t.canonical = u.canonical := by
  have hself : t.equal u = true ↔ t = u := by
    cases t with
    | list kind items => exact absurd rfl hlist
    | compound entries => exact absurd rfl hcompound
    | float v => exact absurd rfl h.1
    | double v => exact absurd rfl h.2
    | _ => cases u <;> simp [equal]
  refine hself.trans ⟨fun heq => heq ▸ rfl, fun heq => ?_⟩
  have hkind : u.kind = t.kind := by
    rw [← kind_canonical u, ← heq, kind_canonical]
  rwa [canonical_scalar hlist hcompound, canonical_scalar (hkind ▸ hlist) (hkind ▸ hcompound)] at heq

theorem equalItems_iff {as bs : List Tag}
    (h : ∀ a ∈ as, ∀ b ∈ bs, a.equal b = true ↔ a.canonical = b.canonical) :
    equalItems as bs = true ↔ as.map canonical = bs.map canonical := by
  induction as generalizing bs with
  | nil => cases bs <;> simp [equalItems]
  | cons a as ih =>
    cases bs with
    | nil => simp [equalItems]
    | cons b bs =>
      have hab := h a List.mem_cons_self b List.mem_cons_self
      have hrest := ih fun a ha b hb => h a (List.mem_cons_of_mem _ ha) b (List.mem_cons_of_mem _ hb)
      rw [equalItems, List.map_cons, List.map_cons, List.cons.injEq, ← hab, ← hrest]
      split <;> simp [*]

theorem equalEntries_iff {as bs : List (String × Tag)} : equalEntries as bs = true ↔
    ∀ e ∈ as, ∃ b, bs.lookup e.1 = some b ∧ b.equal e.2 = true := by
  induction as with
  | nil => simp [equalEntries]
  | cons e as ih =>
    rw [equalEntries, List.forall_mem_cons, ← ih]
    split <;> simp [*]

/-- The exception for empty lists is what forgetting their kinds comes to. -/
theorem equal_list_iff {kind kind' : TagKind} {as bs : List Tag}
    (h : ∀ a ∈ as, ∀ b ∈ bs, a.equal b = true ↔ a.canonical = b.canonical) :
    (list kind as).equal (list kind' bs) = true ↔
      (list kind as).canonical = (list kind' bs).canonical := by
  rw [equal, canonical_list, canonical_list, list.injEq, Bool.and_eq_true, equalItems_iff h,
    and_comm]
  refine and_congr_left fun hitems => ?_
  rcases as with _ | ⟨a, as⟩
  · obtain rfl := List.map_eq_nil_iff.mp hitems.symm
    simp [formKind]
  · obtain ⟨b, bs, rfl⟩ := List.exists_cons_of_ne_nil fun hbs : bs = [] => by simp [hbs] at hitems
    simp [formKind]

/-- Where the names of either side differ, comparing from one side finds a permutation. -/
theorem equal_compound_iff {as bs : List (String × Tag)} (has : (as.map Prod.fst).Nodup)
    (hbs : (bs.map Prod.fst).Nodup)
    (h : ∀ a ∈ as, ∀ b ∈ bs, b.2.equal a.2 = true ↔ b.2.canonical = a.2.canonical) :
    (compound as).equal (compound bs) = true ↔
      (compound as).canonical = (compound bs).canonical := by
  have hentries : equalEntries as bs = true ↔
      ∀ e ∈ as, (bs.lookup e.1).map canonical = some e.2.canonical := by
    rw [equalEntries_iff]
    refine forall₂_congr fun e he => ?_
    rw [Option.map_eq_some_iff]
    refine exists_congr fun b => and_congr_right fun hb => ?_
    exact h e he _ (mem_of_lookup_eq_some hb)
  rw [equal, canonical_compound, canonical_compound, compound.injEq,
    mergeSort_nameLe_eq_iff (by rwa [map_fst_map_snd]),
    perm_iff_lookup (by rwa [map_fst_map_snd]) (by rwa [map_fst_map_snd]), Bool.and_eq_true,
    beq_iff_eq, hentries, List.length_map, List.length_map, List.forall_mem_map]
  simp only [lookup_map_snd]

/-- Equality from either side, by induction on one of the trees: where compounds are compared, their
children change sides. -/
theorem equal_iff_canonical_both {t u : Tag} (ht : t.All Exact) (hu : u.All Exact) :
    (t.equal u = true ↔ t.canonical = u.canonical) ∧
      (u.equal t = true ↔ u.canonical = t.canonical) := by
  induction ht generalizing u with
  | @node t here _ ih =>
    by_cases hkind : t.kind = u.kind
    case neg =>
      have hne : t.canonical ≠ u.canonical := fun heq =>
        hkind (by rw [← kind_canonical t, heq, kind_canonical])
      exact ⟨iff_of_false (mt kind_eq_of_equal hkind) hne,
        iff_of_false (mt kind_eq_of_equal (Ne.symm hkind)) hne.symm⟩
    cases t with
    | list kind as =>
      cases u with
      | list kind' bs =>
        constructor
        · exact equal_list_iff fun a ha b hb => (ih a ha (hu.item hb)).1
        · exact equal_list_iff fun b hb a ha => (ih a ha (hu.item hb)).2
      | _ => contradiction
    | compound as =>
      cases u with
      | compound bs =>
        constructor
        · exact equal_compound_iff here.names hu.here.names fun a ha b hb =>
            (ih a.2 (List.mem_map_of_mem ha) (hu.entry hb)).2
        · exact equal_compound_iff hu.here.names here.names fun b hb a ha =>
            (ih a.2 (List.mem_map_of_mem ha) (hu.entry hb)).1
      | _ => contradiction
    | _ => exact ⟨equal_scalar_iff here.discrete nofun nofun,
        equal_scalar_iff hu.here.discrete (hkind ▸ nofun) (hkind ▸ nofun)⟩

theorem equal_iff_canonical {t u : Tag} (ht : t.All Exact) (hu : u.All Exact) :
    t.equal u = true ↔ t.canonical = u.canonical :=
  (equal_iff_canonical_both ht hu).1

/-! ### Reordering -/

/-- The children of compounds are in other orders, at any depth. -/
inductive Reordered : Tag → Tag → Prop where
  | refl (t : Tag) : Reordered t t
  | children {as bs : List (String × Tag)} (h : as.Perm bs) : Reordered (compound as) (compound bs)
  | item {kind : TagKind} {front back : List Tag} {t u : Tag} (h : Reordered t u) :
      Reordered (list kind (front ++ t :: back)) (list kind (front ++ u :: back))
  | entry {front back : List (String × Tag)} {name : String} {t u : Tag} (h : Reordered t u) :
      Reordered (compound (front ++ (name, t) :: back)) (compound (front ++ (name, u) :: back))
  | trans {t u v : Tag} (h : Reordered t u) (h' : Reordered u v) : Reordered t v

/-- By induction on how the trees are reordered. -/
theorem Reordered.canonical_eq {t u : Tag} (h : t.Reordered u) (ht : t.All Exact) :
    u.All Exact ∧ t.canonical = u.canonical := by
  induction h with
  | refl t => exact ⟨ht, rfl⟩
  | @children as bs h =>
    have hnames : (as.map Prod.fst).Nodup := ht.here.names
    refine ⟨.node ⟨ht.here.discrete, (h.map _).nodup_iff.mp hnames⟩ fun v hv => ?_, ?_⟩
    · exact ht.child ((h.map _).mem_iff.mpr hv)
    · rw [canonical_compound, canonical_compound,
        (mergeSort_nameLe_eq_iff (by rwa [map_fst_map_snd])).mpr (h.map _)]
  | @item kind front back t u _ ih =>
    obtain ⟨hu, heq⟩ := ih (ht.item (by simp))
    refine ⟨.node ⟨ht.here.discrete, trivial⟩ fun v hv => ?_, ?_⟩
    · rcases List.mem_append.mp hv with hv | hv
      · exact ht.item (List.mem_append_left _ hv)
      rcases List.mem_cons.mp hv with rfl | hv
      · exact hu
      · exact ht.item (List.mem_append_right _ (List.mem_cons_of_mem _ hv))
    · simp [canonical_list, formKind, heq]
  | @entry front back name t u _ ih =>
    obtain ⟨hu, heq⟩ := ih (ht.child (by simp [Tag.children]))
    refine ⟨.node ⟨ht.here.discrete, ?_⟩ fun v hv => ?_, ?_⟩
    · simpa [NamesDiffer] using ht.here.names
    · obtain ⟨e, he, rfl⟩ := List.mem_map.mp hv
      rcases List.mem_append.mp he with he | he
      · exact ht.entry (List.mem_append_left _ he)
      rcases List.mem_cons.mp he with rfl | he
      · exact hu
      · exact ht.entry (List.mem_append_right _ (List.mem_cons_of_mem _ he))
    · simp [canonical_compound, heq]
  | trans _ _ ih ih' =>
    obtain ⟨hu, heq⟩ := ih ht
    obtain ⟨hv, heq'⟩ := ih' hu
    exact ⟨hv, heq.trans heq'⟩

/-! ### The main result -/

/-- On trees that were built and hold no floating-point numbers, equality is an equivalence. It is
sameness of canonical forms; so it ignores the order of children, whatever their depth, and tells
trees of different kinds apart. -/
theorem Built.equal_canonical {ends : Prop} {t u v : Tag} (ht : t.Built ends) (hu : u.Built ends)
    (hv : v.Built ends) (ht' : t.All Discrete) (hu' : u.All Discrete) (hv' : v.All Discrete) :
    t == t ∧ (t == u → u == t) ∧ (t == u → u == v → t == v) ∧
      (t == u ↔ t.sorted.normal = u.sorted.normal) ∧
      (∀ w, t.Reordered w → t == w) ∧ (t == u → t.kind = u.kind) := by
  have ht := ht.exact ht'
  have hu := hu.exact hu'
  have hv := hv.exact hv'
  refine ⟨(equal_iff_canonical ht ht).mpr rfl, fun h => ?_, fun h h' => ?_,
    equal_iff_canonical ht hu, fun w hw => ?_, fun h => ?_⟩
  · exact (equal_iff_canonical hu ht).mpr ((equal_iff_canonical ht hu).mp h).symm
  · exact (equal_iff_canonical ht hv).mpr
      (((equal_iff_canonical ht hu).mp h).trans ((equal_iff_canonical hu hv).mp h'))
  · obtain ⟨hw', heq⟩ := hw.canonical_eq ht
    exact (equal_iff_canonical ht hw').mpr heq
  · exact kind_eq_of_equal h

/-- Two orders of the same children, with an empty list of bytes where the other is untyped. -/
def shuffled : Tag × Tag :=
  (.compound [("a", .list .byte []), ("b", .compound [("x", .int 1), ("y", .string "z")])],
    .compound [("b", .compound [("y", .string "z"), ("x", .int 1)]), ("a", .list .endMark [])])

theorem equal_canonical_shuffled : shuffled.1.Built False ∧ shuffled.2.Built False ∧
    shuffled.1 == shuffled.2 ∧ shuffled.2 == shuffled.1 ∧
      shuffled.1.sorted.normal = shuffled.2.sorted.normal := by
  have hfirst : shuffled.1.Built False := built_iff_legal.mpr (by decide)
  have hsecond : shuffled.2.Built False := built_iff_legal.mpr (by decide)
  have hequal : shuffled.1 == shuffled.2 := by
    show shuffled.1.equal shuffled.2 = true
    simp [shuffled, equal, equalItems, equalEntries_iff, List.lookup_cons]
  obtain ⟨-, hsymm, -, hiff, -⟩ := Built.equal_canonical hfirst hsecond hsecond (by decide)
    (by decide) (by decide)
  exact ⟨hfirst, hsecond, hequal, hsymm hequal, hiff.mp hequal⟩

end Tag

end MinecraftWire.Nbt
