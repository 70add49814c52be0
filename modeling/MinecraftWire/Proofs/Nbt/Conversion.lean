import MinecraftWire.Nbt.Conversion
import MinecraftWire.Proofs.Nbt.Container
import MinecraftWire.Proofs.Nbt.RoundTrip
import MinecraftWire.Proofs.Nbt.Schema
import MinecraftWire.Proofs.Number.Binary

/-! From trees to native values and back. Under a schema that serves it, the native value of a tree
becomes the tree again, with the children of compounds in the order of their names and with other
kinds for empty lists: by induction on the service, list by list and compound by compound. -/

namespace MinecraftWire

/-! ### Objects -/

theorem Native.lastOfEach_eq {fields : List (String × Native)}
    (h : (fields.map Prod.fst).Nodup) : lastOfEach fields = fields := by
  fun_induction lastOfEach fields with
  | case1 => rfl
  | case2 => rfl
  | case3 field next rest heq _ =>
    rw [List.map_cons, List.map_cons, List.nodup_cons] at h
    exact absurd (heq ▸ List.mem_cons_self) h.1
  | case4 field next rest _ ih =>
    rw [List.map_cons, List.nodup_cons] at h
    rw [ih h.2]

namespace Nbt

/-- The order of the fields of an object. -/
def nameLe {α : Type} (a b : String × α) : Bool :=
  !decide (b.1 < a.1)

theorem map_mergeSort_nameLe {α β : Type} (f : α → β) (entries : List (String × α)) :
    (entries.map fun e => (e.1, f e.2)).mergeSort nameLe =
      (entries.mergeSort nameLe).map fun e => (e.1, f e.2) := by
  symm
  apply List.map_mergeSort
  intro a _ b _
  rfl

theorem nodup_names_mergeSort {α : Type} {entries : List (String × α)}
    (h : (entries.map Prod.fst).Nodup) : ((entries.mergeSort nameLe).map Prod.fst).Nodup :=
  ((entries.mergeSort_perm nameLe).map Prod.fst).nodup_iff.mpr h

namespace Tag

mutual

/-- The tree with the children of each compound in the order of their names. -/
def sorted : Tag → Tag
  | list kind items => list kind (sortedItems items)
  | compound entries => compound ((sortedEntries entries).mergeSort nameLe)
  | t => t
termination_by structural t => t

def sortedItems : List Tag → List Tag
  | [] => []
  | t :: items => t.sorted :: sortedItems items
termination_by structural ts => ts

def sortedEntries : List (String × Tag) → List (String × Tag)
  | [] => []
  | (name, t) :: entries => (name, t.sorted) :: sortedEntries entries
termination_by structural es => es

end

theorem sortedItems_eq_map (items : List Tag) : sortedItems items = items.map sorted := by
  induction items with
  | nil => rfl
  | cons t items ih => rw [sortedItems, ih, List.map_cons]

theorem sortedEntries_eq_map (entries : List (String × Tag)) :
    sortedEntries entries = entries.map fun e => (e.1, e.2.sorted) := by
  induction entries with
  | nil => rfl
  | cons e entries ih => rw [sortedEntries, ih, List.map_cons]

theorem normalItems_eq_map (items : List Tag) : normalItems items = items.map normal := by
  induction items with
  | nil => rfl
  | cons t items ih => rw [normalItems, ih, List.map_cons]

theorem normalEntries_eq_map (entries : List (String × Tag)) :
    normalEntries entries = entries.map fun e => (e.1, e.2.normal) := by
  induction entries with
  | nil => rfl
  | cons e entries ih => rw [normalEntries, ih, List.map_cons]

theorem toFields_eq_map (entries : List (String × Tag)) :
    toFields entries = entries.map fun e => (e.1, e.2.toNative) := by
  induction entries with
  | nil => rfl
  | cons e entries ih => rw [toFields, ih, List.map_cons]

theorem kind_sorted (t : Tag) : t.sorted.kind = t.kind := by
  cases t <;> rfl

theorem kind_normal (t : Tag) : t.normal.kind = t.kind := by
  cases t <;> rfl

/-- The object of a compound has its children in the order of their names. -/
theorem ofFields_toFields {entries : List (String × Tag)} (h : (entries.map Prod.fst).Nodup) :
    Native.ofFields (toFields entries) = .object (toFields (entries.mergeSort nameLe)) := by
  have hnames : ((toFields (entries.mergeSort nameLe)).map Prod.fst).Nodup := by
    rw [toFields_eq_map, List.map_map]
    exact nodup_names_mergeSort h
  show Native.object (Native.lastOfEach ((toFields entries).mergeSort nameLe)) = _
  rw [toFields_eq_map entries, map_mergeSort_nameLe, ← toFields_eq_map, Native.lastOfEach_eq hnames]

/-! ### Scalars -/

/-- No floating-point value is infinite or not a number. -/
def Finite : Tag → Prop
  | float v => v.isFinite
  | double v => v.isFinite
  | _ => True

instance : DecidablePred Finite := fun t =>
  match t with
  | float v => inferInstanceAs (Decidable (v.isFinite = true))
  | double v => inferInstanceAs (Decidable (v.isFinite = true))
  | endMark | byte _ | short _ | int _ | long _ | byteArray _ | string _ | list _ _ | compound _
  | intArray _ | longArray _ => .isTrue trivial

theorem integerArray_toInt {α : Type} [FixedInteger α] [FixedInteger.Faithful α] (schema : Schema)
    (vs : List α) : integerArray α schema
      (.array (vs.map fun v => .integer (FixedInteger.toInt v))) = .ok vs := by
  have hintegers : integers schema (.array (vs.map fun v => .integer (FixedInteger.toInt v))) =
      .ok (vs.map FixedInteger.toInt) := by
    rw [integers, List.mapM_map]
    exact List.mapM_pure
  rw [integerArray, hintegers]
  show (vs.map FixedInteger.toInt).mapM (narrowAs schema.kind.name α) = .ok vs
  rw [List.mapM_map]
  have hnarrow : narrowAs schema.kind.name α ∘ FixedInteger.toInt = fun v => pure (id v) :=
    funext fun v => FixedInteger.narrowAs_toInt schema.kind.name v
  rw [hnarrow, List.mapM_pure, List.map_id]
  rfl

theorem ofDouble_widen {v : Float32Bits} (h : v.isFinite) : ofDouble v.widen = .ok (float v) := by
  have hrange : ¬ Float32Bits.greatest.widen.magnitude < v.widen.magnitude :=
    Nat.not_lt.mpr (Float32Bits.magnitude_widen_le h)
  unfold ofDouble
  simp only [hrange, and_false, if_false, Float32Bits.narrow_widen h]

theorem ofNative_scalar {s : Schema} {t : Tag} (hkind : s.kind = t.kind) (hlist : t.kind ≠ .list)
    (hcompound : t.kind ≠ .compound) (hfinite : t.Finite) :
    ofNative (some s) t.toNative = .ok t := by
  have hschema : ∀ s' : Schema, s'.kind = t.kind → s = s' := fun s' hs' =>
    Schema.eq_of_kind_eq (hkind.trans hs'.symm) (hkind ▸ hlist) (hkind ▸ hcompound)
  cases t with
  | endMark => exact absurd hkind s.kind_ne_endMark
  | byte v =>
    obtain rfl := hschema .byte rfl
    exact congrArg (Except.map byte) (FixedInteger.narrowAs_toInt _ v)
  | short v =>
    obtain rfl := hschema .short rfl
    exact congrArg (Except.map short) (FixedInteger.narrowAs_toInt _ v)
  | int v =>
    obtain rfl := hschema .int rfl
    exact congrArg (Except.map int) (FixedInteger.narrowAs_toInt _ v)
  | long v =>
    obtain rfl := hschema .long rfl
    exact congrArg (Except.map long) (FixedInteger.narrowAs_toInt _ v)
  | float v =>
    obtain rfl := hschema .float rfl
    rw [toNative, nativeDouble, if_pos (Float32Bits.steps_widen hfinite).1]
    exact ofDouble_widen hfinite
  | double v =>
    obtain rfl := hschema .double rfl
    have hv : v.isFinite := hfinite
    rw [toNative, nativeDouble, if_pos hv]
    rfl
  | byteArray vs =>
    obtain rfl := hschema .byteArray rfl
    exact congrArg (Except.map byteArray) (integerArray_toInt .byteArray vs)
  | string s =>
    obtain rfl := hschema .string rfl
    rfl
  | list kind items => exact absurd rfl hlist
  | compound entries => exact absurd rfl hcompound
  | intArray vs =>
    obtain rfl := hschema .intArray rfl
    exact congrArg (Except.map intArray) (integerArray_toInt .intArray vs)
  | longArray vs =>
    obtain rfl := hschema .longArray rfl
    exact congrArg (Except.map longArray) (integerArray_toInt .longArray vs)

/-! ### Containers -/

theorem ofResults_ok (l : TagList) (ts : List Tag) :
    l.ofResults (ts.map .ok) = l.pushAll ts := by
  induction ts generalizing l with
  | nil => rfl
  | cons t ts ih =>
    show (l.push t >>= fun l => l.ofResults (ts.map .ok)) = (l.push t >>= fun l => l.pushAll ts)
    exact congrArg (l.push t >>= ·) (funext ih)

theorem ofTags_eq {kind : TagKind} {ts : List Tag}
    (h : ∀ t ∈ ts, t.kind = kind ∧ t.kind ≠ .endMark) :
    TagList.ofTags ts = .ok ⟨formKind kind ts, ts.toArray⟩ := by
  rcases ts with _ | ⟨t, ts⟩
  · rfl
  · obtain ⟨ht, hend⟩ := h t List.mem_cons_self
    have hpush : TagList.empty.push t = .ok ⟨kind, #[t]⟩ :=
      TagList.push_eq_ok_iff.mpr ⟨hend, .inl rfl, by rw [ht]; rfl⟩
    show (TagList.empty.push t >>= fun l => l.pushAll ts) = _
    rw [hpush]
    show TagList.pushAll ts ⟨kind, #[t]⟩ = _
    rw [pushAll_eq (ht ▸ hend) ts fun u hu => (h u (List.mem_cons_of_mem _ hu)).1]
    simp [formKind]

theorem ofNatives_eq_map (o : Option Schema) (items : List Tag) :
    ofNatives o (toNatives items) = items.map fun t => ofNative o t.toNative := by
  induction items with
  | nil => rfl
  | cons t items ih => rw [toNatives, ofNatives, ih, List.map_cons]

/-- The native value of the tree becomes a tree that differs from it in the order of the children of
compounds and in the kinds of empty lists only. -/
def Returns (o : Option Schema) (t : Tag) : Prop :=
  ∃ t', ofNative o t.toNative = .ok t' ∧ t'.normal = t.sorted.normal

theorem exists_results {o : Option Schema} {items : List Tag} (h : ∀ t ∈ items, Returns o t) :
    ∃ ts : List Tag, items.map (fun t => ofNative o t.toNative) = ts.map .ok ∧
      ts.map normal = items.map fun t => t.sorted.normal := by
  induction items with
  | nil => exact ⟨[], rfl, rfl⟩
  | cons t items ih =>
    rw [List.forall_mem_cons] at h
    obtain ⟨t', ht', hnormal⟩ := h.1
    obtain ⟨ts, hts, hnormals⟩ := ih h.2
    refine ⟨t' :: ts, ?_, ?_⟩
    · rw [List.map_cons, List.map_cons, ht', hts]
    · rw [List.map_cons, List.map_cons, hnormal, hnormals]

theorem kind_of_results {items ts : List Tag} {P : TagKind → Prop}
    (h : ts.map normal = items.map fun t => t.sorted.normal) (hitems : ∀ t ∈ items, P t.kind) :
    ∀ t ∈ ts, P t.kind := by
  intro t ht
  have hmem : t.normal ∈ ts.map normal := List.mem_map_of_mem ht
  rw [h] at hmem
  obtain ⟨u, hu, heq⟩ := List.mem_map.mp hmem
  rw [← kind_normal t, ← heq, kind_normal, kind_sorted]
  exact hitems u hu

theorem normal_list_eq {kind kind' : TagKind} {items ts : List Tag}
    (h : ts.map normal = items.map fun t => t.sorted.normal) (hkind : ∀ t ∈ ts, kind' = kind) :
    (list kind' ts).normal = (list kind items).sorted.normal := by
  have hitems : normalItems ts = normalItems (sortedItems items) := by
    rw [normalItems_eq_map, normalItems_eq_map, sortedItems_eq_map, List.map_map, h]
    rfl
  have hform : formKind kind' ts = formKind kind (sortedItems items) := by
    rcases ts with _ | ⟨t, ts⟩
    · obtain rfl := List.map_eq_nil_iff.mp h.symm
      rfl
    · obtain rfl := hkind t List.mem_cons_self
      rcases items with _ | ⟨u, items⟩
      · contradiction
      · rfl
  rw [sorted, normal, normal, hitems, hform]

theorem returns_list {element : Schema} {kind : TagKind} {items : List Tag}
    (hlegal : (list kind items).Legal) (hkind : ∀ t ∈ items, t.kind = element.kind)
    (h : ∀ t ∈ items, Returns (some element) t) :
    Returns (some (.list element)) (list kind items) := by
  obtain ⟨ts, hts, hnormals⟩ := exists_results h
  have hkinds : ∀ t ∈ ts, t.kind = element.kind :=
    kind_of_results (P := (· = element.kind)) hnormals hkind
  have hpush := pushAll_eq element.kind_ne_endMark ts hkinds #[]
  refine ⟨list element.kind ts, ?_, normal_list_eq hnormals fun t ht => ?_⟩
  · show ((TagList.ofKind element.kind).ofResults (ofNatives (some element) (toNatives items)) >>=
      fun l => .ok l.toTag) = _
    rw [ofNatives_eq_map, hts, ofResults_ok, TagList.ofKind, hpush]
    show Except.ok (TagList.toTag _) = _
    simp [TagList.toTag]
  · rw [← hkinds t ht]
    exact kind_of_results (P := (· = kind)) hnormals (fun u hu => (hlegal u hu).1) t ht

/-- Nothing but lists is taken for numbers. -/
theorem ofArray?_toNatives {items : List Tag} (h : ∀ t ∈ items, Schema.Serves none t) :
    Width.ofArray? (toNatives items) = none := by
  rcases items with _ | ⟨t, items⟩
  · rfl
  · cases h t List.mem_cons_self with
    | free _ => cases items <;> rfl

theorem returns_free {kind : TagKind} {items : List Tag} (hlegal : (list kind items).Legal)
    (hserves : ∀ t ∈ items, Schema.Serves none t) (h : ∀ t ∈ items, Returns none t) :
    Returns none (list kind items) := by
  obtain ⟨ts, hts, hnormals⟩ := exists_results h
  have hall : (ts.map Except.ok).mapM id = (.ok ts : Except Fault (List Tag)) := by
    rw [List.mapM_map]
    exact List.mapM_pure.trans (congrArg Except.ok (List.map_id ts))
  have htags : TagList.ofTags ts = .ok ⟨formKind kind ts, ts.toArray⟩ :=
    ofTags_eq (kind_of_results (P := fun k => k = kind ∧ k ≠ .endMark) hnormals hlegal)
  refine ⟨list (formKind kind ts) ts, ?_, normal_list_eq hnormals fun t ht => formKind_of_mem ht⟩
  simp only [toNative, ofNative, ofArray?_toNatives hserves]
  rw [ofNatives_eq_map, hts, hall]
  show (TagList.ofTags ts >>= fun l => .ok l.toTag) = _
  rw [htags]
  rfl

/-- The fields of an object are added to a compound one after the other. -/
theorem exists_fields {schemas : List (String × Schema)} {built : Compound}
    {done entries : List (String × Tag)} (hbuilt : built.Holds done)
    (hnames : (done.map Prod.fst ++ entries.map Prod.fst).Nodup)
    (h : ∀ e ∈ entries, (e.1 ≠ "" ∧ e.2.kind ≠ .endMark) ∧ Returns (schemas.lookup e.1) e.2) :
    ∃ (c : Compound) (es : List (String × Tag)),
      ofFields schemas built (toFields entries) = .ok c ∧ c.Holds (done ++ es) ∧
        es.map (fun e => (e.1, e.2.normal)) = entries.map fun e => (e.1, e.2.sorted.normal) := by
  induction entries generalizing built done with
  | nil => exact ⟨built, [], rfl, by rwa [List.append_nil], rfl⟩
  | cons e entries ih =>
    obtain ⟨name, t⟩ := e
    rw [List.forall_mem_cons] at h
    obtain ⟨⟨⟨hname, hend⟩, t', ht', hnormal⟩, h⟩ := h
    have hend' : t'.kind ≠ .endMark := by
      rwa [← kind_normal, hnormal, kind_normal, kind_sorted]
    have hnew : ¬ (name.isEmpty ∨ (done.lookup name).isSome) := by
      rw [lookup_eq_none hnames]
      simpa using hname
    obtain ⟨built', hinsert, hbuilt'⟩ := hbuilt.insert hnew hend'
    obtain ⟨c, es, hfields, hholds, hnormals⟩ := ih hbuilt' (by simpa using hnames) h
    refine ⟨c, (name, t') :: es, ?_, by simpa using hholds, ?_⟩
    · simp only [toFields, ofFields, ht', hinsert, hfields]
    · rw [List.map_cons, List.map_cons, hnormals, hnormal]

theorem returns_compound {fields : List (String × Schema)} {entries : List (String × Tag)}
    (hlegal : (compound entries).Legal)
    (h : ∀ e ∈ entries, Returns (fields.lookup e.1) e.2) :
    Returns (some (.compound fields)) (compound entries) := by
  obtain ⟨hnames, hchild⟩ := hlegal
  obtain ⟨c, es, hfields, hholds, hnormals⟩ := exists_fields Compound.holds_empty
    (nodup_names_mergeSort hnames) fun e he =>
      have hmem := (entries.mergeSort_perm nameLe).mem_iff.mp he
      ⟨hchild e hmem, h e hmem⟩
  refine ⟨compound es, ?_, ?_⟩
  · rw [toNative, ofFields_toFields hnames]
    show (ofFields fields .empty (toFields (entries.mergeSort nameLe)) >>= fun c => .ok c.toTag) = _
    rw [hfields]
    show Except.ok (compound c.entries.toList) = _
    rw [hholds.1]
    rfl
  · rw [sorted, normal, normal, normalEntries_eq_map, normalEntries_eq_map, hnormals,
      sortedEntries_eq_map, map_mergeSort_nameLe, List.map_map]
    rfl

theorem sorted_scalar {t : Tag} (hlist : t.kind ≠ .list) (hcompound : t.kind ≠ .compound) :
    t.sorted = t := by
  cases t with
  | list kind items => exact absurd rfl hlist
  | compound entries => exact absurd rfl hcompound
  | _ => rfl

/-- By induction on the service. -/
theorem returns_of_serves {o : Option Schema} {t : Tag} (h : Schema.Serves o t)
    (hlegal : t.All Legal) (hfinite : t.All Finite) : Returns o t := by
  induction h with
  | @scalar s t hkind hlist hcompound =>
    refine ⟨t, ofNative_scalar hkind hlist hcompound hfinite.here, ?_⟩
    rw [sorted_scalar hlist hcompound]
  | list hitems ih =>
    exact returns_list hlegal.here (fun t ht => (hitems t ht).kind_eq) fun t ht =>
      ih t ht (hlegal.item ht) (hfinite.item ht)
  | compound _ ih =>
    exact returns_compound hlegal.here fun e he => ih e he (hlegal.entry he) (hfinite.entry he)
  | free hitems ih =>
    exact returns_free hlegal.here hitems fun t ht => ih t ht (hlegal.item ht) (hfinite.item ht)

/-! ### The round trip -/

/-- A tree that obeys the rules for containers, whose floating-point values are finite and the
elements of whose lists are alike, comes back from its native value under its own schema: the
children of compounds are in the order of their names, empty lists may declare another kind, and all
else is unchanged. -/
theorem ofNative_toNative {t : Tag} {s : Schema} (hlegal : t.All Legal) (hfinite : t.All Finite)
    (huniform : t.All Uniform) (hs : Schema.of? t = some s) :
    ∃ t', ofNative (some s) t.toNative = .ok t' ∧ t'.normal = t.sorted.normal := by
  have hend : t.kind ≠ .endMark := by
    cases t with
    | endMark => contradiction
    | _ => exact nofun
  have hserves := Schema.serves_of? hlegal huniform hend
  rw [hs] at hserves
  exact returns_of_serves hserves hlegal hfinite

/-- Compounds that share one field, which is an untyped empty list in the first of them. -/
def sharedField : Tag :=
  .list .compound [.compound [("b", .float ⟨0x3FC00000⟩), ("a", .list .endMark [])],
    .compound [("a", .list .list [.list .byte []]), ("c", .long 7)]]

theorem ofNative_toNative_sharedField :
    ∃ s t', Schema.of? sharedField = some s ∧ ofNative (some s) sharedField.toNative = .ok t' ∧
      t'.normal = .list .compound
        [.compound [("a", .list .endMark []), ("b", .float ⟨0x3FC00000⟩)],
          .compound [("a", .list .list [.list .endMark []]), ("c", .long 7)]] := by
  have hab : nameLe ("b", float ⟨0x3FC00000⟩) ("a", list .endMark []) = false := by decide
  have hac : nameLe ("a", list .list [.list .byte []]) ("c", long 7) = true := by decide
  obtain ⟨t', ht', hnormal⟩ := ofNative_toNative (t := sharedField) (by decide +kernel)
    (by decide +kernel) (by decide +kernel) rfl
  refine ⟨_, t', rfl, ht', hnormal.trans ?_⟩
  simp [sharedField, sorted, sortedItems, sortedEntries, List.mergeSort, hab, hac, normal,
    normalItems, normalEntries, formKind]

end Tag

end Nbt

end MinecraftWire
