import MinecraftWire.Proofs.Nbt.Merging

/-! The schema of a tree. A schema serves a tree if it tells every kind in it, apart from lists that
hold nothing but empty lists. Merging keeps a schema in service as long as what it is merged with
contradicts the tree at no path. So where the elements of each list contradict each other nowhere,
the schema of a tree serves it: by induction on the tree, and inside it on the elements of a list.
-/

namespace MinecraftWire.Nbt

namespace Schema

/-! ### Service -/

/-- Wherever the schema tells a kind and the tree has a tag, it is of that kind. -/
def Agrees (o : Option Schema) (t : Tag) : Prop :=
  ∀ path k k', (o.bind fun s => s.kindAt? path) = some k → t.HasKindAt path k' → k = k'

section Agrees

variable {s element : Schema} {fields : List (String × Schema)} {t : Tag} {kind : TagKind}
  {items : List Tag} {entries : List (String × Tag)}

theorem Agrees.kind_eq (h : Agrees (some s) t) : s.kind = t.kind :=
  h [] _ _ rfl (.here t)

theorem Agrees.item (h : Agrees (some (list element)) (.list kind items)) (ht : t ∈ items) :
    Agrees (some element) t :=
  fun path k k' hk hk' => h (.item :: path) k k' hk (.item ht hk')

theorem Agrees.entry (h : Agrees (some (compound fields)) (.compound entries)) {e : String × Tag}
    (he : e ∈ entries) : Agrees (fields.lookup e.1) e.2 :=
  fun path k k' hk hk' => h (.field e.1 :: path) k k' hk (.field he hk')

end Agrees

/-- The schema tells every kind in the tree. Where there is none, the tree holds nothing but lists.
-/
inductive Serves : Option Schema → Tag → Prop where
  | scalar {s : Schema} {t : Tag} (hkind : s.kind = t.kind) (hlist : t.kind ≠ .list)
      (hcompound : t.kind ≠ .compound) : Serves (some s) t
  | list {element : Schema} {kind : TagKind} {items : List Tag}
      (h : ∀ t ∈ items, Serves (some element) t) : Serves (some (.list element)) (.list kind items)
  | compound {fields : List (String × Schema)} {entries : List (String × Tag)}
      (h : ∀ e ∈ entries, Serves (fields.lookup e.1) e.2) :
      Serves (some (.compound fields)) (.compound entries)
  | free {kind : TagKind} {items : List Tag} (h : ∀ t ∈ items, Serves none t) :
      Serves none (.list kind items)

theorem Serves.kind_eq {s : Schema} {t : Tag} (h : Serves (some s) t) : t.kind = s.kind := by
  cases h with
  | scalar hkind _ _ => exact hkind.symm
  | list _ => rfl
  | compound _ => rfl

/-- A tree of nothing but lists is served by every schema that agrees with it. -/
theorem Serves.of_free {t : Tag} (h : Serves none t) {s : Schema} (hs : Agrees (some s) t) :
    Serves (some s) t := by
  generalize ho : (none : Option Schema) = o at h
  induction h generalizing s with
  | scalar _ _ _ => contradiction
  | list _ _ => contradiction
  | compound _ _ => contradiction
  | free _ ih =>
    cases s with
    | list element => exact .list fun t ht => ih t ht (hs.item ht) rfl
    | _ => exact absurd hs.kind_eq nofun

/-- A schema remains in service when another is merged into it. -/
theorem Serves.merge_left {o other : Option Schema} {t : Tag} (h : Serves o t)
    (hother : Agrees other t) (hdistinct : ∀ b ∈ other, b.Distinct) :
    Serves (mergeOptional o other) t := by
  rcases other with _ | b
  · rw [mergeOptional_none]
    exact h
  replace hdistinct : b.Distinct := hdistinct b rfl
  induction h generalizing b with
  | @scalar a t hkind hlist hcompound =>
    rw [mergeOptional, merge_of_scalar (hkind ▸ hlist) (hkind ▸ hcompound)]
    exact .scalar hkind hlist hcompound
  | list hitems ih =>
    cases b with
    | list other => exact .list fun t ht => ih t ht other (hother.item ht) hdistinct.element
    | _ => exact .list hitems
  | @compound fields entries hentries ih =>
    cases b with
    | compound more =>
      obtain ⟨hnames, hmore⟩ := hdistinct.fields
      refine .compound fun e he => ?_
      have hagrees := hother.entry he
      rw [lookup_mergeFields fields hnames]
      rcases hlookup : more.lookup e.1 with _ | s
      · rw [mergeOptional_none]
        exact hentries e he
      · rw [hlookup] at hagrees
        exact ih e he s hagrees (hmore _ (mem_of_lookup_eq_some hlookup))
    | _ => exact .compound hentries
  | free hitems _ => exact (Serves.free hitems).of_free hother

/-- A schema remains in service when it is merged into another. -/
theorem Serves.merge_right {o other : Option Schema} {t : Tag} (h : Serves o t)
    (hother : Agrees other t) (hdistinct : ∀ b ∈ o, b.Distinct) :
    Serves (mergeOptional other o) t := by
  rcases other with _ | a
  · exact h
  induction h generalizing a with
  | @scalar s t hkind hlist hcompound =>
    have ha := hother.kind_eq
    rw [mergeOptional, merge_of_scalar (ha ▸ hlist) (ha ▸ hcompound)]
    exact .scalar ha hlist hcompound
  | @list element kind items hitems ih =>
    cases a with
    | list other =>
      have helement := (hdistinct _ rfl).element
      exact .list fun t ht => ih t ht (by rintro b ⟨⟩; exact helement) other (hother.item ht)
    | _ => exact absurd hother.kind_eq nofun
  | @compound fields entries hentries ih =>
    cases a with
    | compound others =>
      obtain ⟨hnames, hfields⟩ := (hdistinct _ rfl).fields
      refine .compound fun e he => ?_
      have hagrees := hother.entry he
      rw [lookup_mergeFields others hnames]
      rcases hlookup : others.lookup e.1 with _ | s
      · exact hentries e he
      · rw [hlookup] at hagrees
        exact ih e he (fun b hb => hfields _ (mem_of_lookup_eq_some hb)) s hagrees
    | _ => exact absurd hother.kind_eq nofun
  | free hitems _ => exact (Serves.free hitems).of_free hother

/-- The schema serves each of the trees, and tells only what one of them tells. -/
structure Describes (o : Option Schema) (ts : List Tag) : Prop where
  serves : ∀ t ∈ ts, Serves o t
  told : ∀ path kind, (o.bind fun s => s.kindAt? path) = some kind →
    ∃ t ∈ ts, t.HasKindAt path kind
  distinct : ∀ s ∈ o, s.Distinct

theorem describes_nil : Describes none [] :=
  ⟨fun _ ht => absurd ht List.not_mem_nil, nofun, nofun⟩

/-- One more tree, which is like those before. -/
theorem Describes.merge {o other : Option Schema} {ts : List Tag} {t : Tag} (h : Describes o ts)
    (ht : Describes other [t]) (halike : ∀ u ∈ ts, u.Alike t) :
    Describes (mergeOptional o other) (ts ++ [t]) where
  serves u hmem := by
    rcases List.mem_append.mp hmem with hu | hu
    · -- what the new schema tells, the new tree has, and the earlier trees are like it
      refine (h.serves u hu).merge_left (fun path k k' hk hk' => ?_) ht.distinct
      obtain ⟨v, hv, hkind⟩ := ht.told path k hk
      obtain rfl := List.mem_singleton.mp hv
      exact (halike u hu path k' k hk' hkind).symm
    · obtain rfl := List.mem_singleton.mp hu
      refine (ht.serves u List.mem_cons_self).merge_right (fun path k k' hk hk' => ?_) ht.distinct
      obtain ⟨v, hv, hkind⟩ := h.told path k hk
      exact halike v hv path k k' hkind hk'
  told path kind hkind := by
    have hone : (o.bind fun s => s.kindAt? path) = some kind ∨
        (other.bind fun s => s.kindAt? path) = some kind := by
      rcases o with _ | a
      · exact .inr hkind
      · rcases other with _ | b
        · exact .inl hkind
        · exact kindAt?_merge (ht.distinct b rfl) hkind
    rcases hone with hold | hnew
    · obtain ⟨u, hu, h⟩ := h.told path kind hold
      exact ⟨u, List.mem_append_left _ hu, h⟩
    · obtain ⟨u, hu, h⟩ := ht.told path kind hnew
      exact ⟨u, List.mem_append_right _ hu, h⟩
  distinct s hs := by
    rcases o with _ | a
    · exact ht.distinct s hs
    · rcases other with _ | b
      · exact h.distinct s hs
      · obtain rfl := Option.some.inj hs
        exact distinct_merge (h.distinct a rfl) (ht.distinct b rfl)

/-- The schemas of the elements, merged one after the other. -/
theorem Describes.ofItems {o : Option Schema} {earlier items : List Tag} (h : Describes o earlier)
    (hitems : ∀ t ∈ items, Describes (of? t) [t]) (halike : (earlier ++ items).Pairwise Tag.Alike) :
    Describes (ofItems o items) (earlier ++ items) := by
  induction items generalizing o earlier with
  | nil =>
    rw [List.append_nil]
    exact h
  | cons t items ih =>
    rw [List.forall_mem_cons] at hitems
    rw [List.append_cons] at halike ⊢
    have hnew := (List.pairwise_append.mp (List.pairwise_append.mp halike).1).2.2
    exact ih (h.merge hitems.1 fun u hu => hnew u hu t List.mem_cons_self) hitems.2 halike

/-! ### The schema of a tree -/

theorem Describes.single {o : Option Schema} {t : Tag} (hserves : Serves o t)
    (htold : ∀ path kind, (o.bind fun s => s.kindAt? path) = some kind → t.HasKindAt path kind)
    (hdistinct : ∀ s ∈ o, s.Distinct) : Describes o [t] where
  serves _ hu := List.mem_singleton.mp hu ▸ hserves
  told path kind h := ⟨t, List.mem_cons_self, htold path kind h⟩
  distinct := hdistinct

theorem Describes.scalar {s : Schema} {t : Tag} (hkind : s.kind = t.kind) (hlist : t.kind ≠ .list)
    (hcompound : t.kind ≠ .compound) : Describes (some s) [t] := by
  refine .single (.scalar hkind hlist hcompound) (fun path kind h => ?_) fun b hb => ?_
  · change s.kindAt? path = some kind at h
    rcases path with _ | ⟨step, path⟩
    · obtain rfl := Option.some.inj h
      exact hkind ▸ .here t
    · rw [kindAt?_of_scalar (hkind ▸ hlist) (hkind ▸ hcompound)] at h
      contradiction
  · obtain rfl := Option.some.inj hb
    exact .scalar (hkind ▸ hlist) (hkind ▸ hcompound)

theorem Describes.list {element : Schema} {kind : TagKind} {items : List Tag}
    (hserves : ∀ t ∈ items, Serves (some element) t)
    (htold : ∀ path k, element.kindAt? path = some k →
      (Tag.list kind items).HasKindAt (.item :: path) k)
    (hdistinct : element.Distinct) :
    Describes (some (.list element)) [.list kind items] := by
  refine .single (.list hserves) (fun path k h => ?_) fun b hb => ?_
  · rcases path with _ | ⟨step, path⟩
    · obtain rfl := Option.some.inj h
      exact .here _
    · cases step with
      | field name => contradiction
      | item => exact htold path k h
  · obtain rfl := Option.some.inj hb
    exact .list hdistinct

/-- A list without elements tells the kind it declares, and nothing of what would be deeper. -/
theorem describes_empty {kind : TagKind} {s : Schema} (h : ofKind? kind = some s) :
    Describes (some (.list s)) [.list kind []] := by
  have hkind : s.kind = kind := by
    cases kind <;> cases h <;> rfl
  have hdeep : ∀ step path, s.kindAt? (step :: path) = none := by
    intro step path
    cases kind <;> cases h <;> cases step <;> rfl
  have hdistinct : s.Distinct := by
    cases kind with
    | endMark | list => contradiction
    | compound =>
      cases h
      exact .compound List.nodup_nil (List.forall_mem_nil _)
    | _ =>
      cases h
      exact .scalar nofun nofun
  refine .list (List.forall_mem_nil _) (fun path k hk => ?_) hdistinct
  rcases path with _ | ⟨step, path⟩
  · obtain rfl := Option.some.inj hk
    rw [hkind]
    exact .declared (hkind ▸ s.kind_ne_endMark)
  · rw [hdeep] at hk
    contradiction

theorem describes_list {kind : TagKind} {items : List Tag} (hlegal : (Tag.list kind items).Legal)
    (h : Describes (Schema.ofItems none items) items) :
    Describes (of? (.list kind items)) [.list kind items] := by
  rw [of?]
  rcases hmerged : Schema.ofItems none items with _ | element <;> rw [hmerged] at h
  · rcases hkind : ofKind? kind with _ | s
    · exact .single (.free h.serves) nofun nofun
    · rcases items with _ | ⟨t, items⟩
      · exact describes_empty hkind
      · -- an element without a schema is a list, but lists of lists declare no schema
        have ht := (hlegal t List.mem_cons_self).1
        cases h.serves t List.mem_cons_self with
        | free _ =>
          obtain rfl : TagKind.list = kind := ht
          contradiction
  · refine .list h.serves (fun path k hk => ?_) (h.distinct element rfl)
    obtain ⟨t, ht, hkind⟩ := h.told path k hk
    exact .item ht hkind

theorem map_fst_ofEntries_sublist (entries : List (String × Tag)) :
    ((ofEntries entries).map Prod.fst).Sublist (entries.map Prod.fst) := by
  induction entries with
  | nil => exact .slnil
  | cons e entries ih =>
    obtain ⟨name, t⟩ := e
    rw [ofEntries]
    rcases of? t with _ | s
    · exact ih.cons name
    · exact ih.cons_cons name

theorem lookup_ofEntries {entries : List (String × Tag)} (h : (entries.map Prod.fst).Nodup)
    (name : String) : (ofEntries entries).lookup name = (entries.lookup name).bind of? := by
  induction entries with
  | nil => rfl
  | cons e entries ih =>
    obtain ⟨other, t⟩ := e
    rw [List.map_cons, List.nodup_cons] at h
    have ih := ih h.2
    rw [ofEntries, lookup_cons_eq_ite]
    rcases hs : of? t with _ | s
    · rw [ih]
      split
      · rename_i hname
        rw [hname, lookup_eq_none_of_not_mem h.1, Option.bind_some, hs]
        rfl
      · rfl
    · rw [lookup_cons_eq_ite, ih]
      split
      · exact hs.symm
      · rfl

theorem describes_compound {entries : List (String × Tag)}
    (hnames : (entries.map Prod.fst).Nodup) (h : ∀ e ∈ entries, Describes (of? e.2) [e.2]) :
    Describes (of? (.compound entries)) [.compound entries] := by
  have hlookup : ∀ e ∈ entries, (ofEntries entries).lookup e.1 = of? e.2 := fun e he => by
    rw [lookup_ofEntries hnames, lookup_eq_some_of_mem hnames he]
    rfl
  have hfield : ∀ name s, (ofEntries entries).lookup name = some s →
      ∃ t, (name, t) ∈ entries ∧ of? t = some s := fun name s hs => by
    rw [lookup_ofEntries hnames, Option.bind_eq_some_iff] at hs
    obtain ⟨t, ht, hs⟩ := hs
    exact ⟨t, mem_of_lookup_eq_some ht, hs⟩
  have hfields := (map_fst_ofEntries_sublist entries).nodup hnames
  refine .single (.compound fun e he => ?_) (fun path k hk => ?_) fun b hb => ?_
  · rw [hlookup e he]
    exact (h e he).serves e.2 List.mem_cons_self
  · rcases path with _ | ⟨step, path⟩
    · obtain rfl := Option.some.inj hk
      exact .here _
    · cases step with
      | item => contradiction
      | field name =>
        change ((ofEntries entries).lookup name).bind (fun s => s.kindAt? path) = some k at hk
        obtain ⟨s, hs, hk⟩ := Option.bind_eq_some_iff.mp hk
        obtain ⟨t, ht, hs⟩ := hfield name s hs
        obtain ⟨u, hu, hkind⟩ := (h _ ht).told path k (by rw [hs]; exact hk)
        obtain rfl : u = t := List.mem_singleton.mp hu
        exact .field ht hkind
  · obtain rfl := Option.some.inj hb
    refine .compound hfields fun field hmem => ?_
    obtain ⟨t, ht, hs⟩ := hfield _ _ (lookup_eq_some_of_mem hfields hmem)
    exact (h _ ht).distinct field.2 hs

/-- Where the elements of each list are alike, the schema of a tree serves the tree and tells
nothing that is not in it: by induction on the tree. -/
theorem describes_of? {t : Tag} (hlegal : t.All Tag.Legal) (huniform : t.All Tag.Uniform)
    (hend : t.kind ≠ .endMark) : Describes (of? t) [t] := by
  induction hlegal with
  | @node t hlegal _ ih =>
    cases t with
    | endMark => exact absurd rfl hend
    | list kind items =>
      have hitems : ∀ t ∈ items, Describes (of? t) [t] := fun t ht =>
        ih t ht (huniform.item ht) (hlegal t ht).2
      exact describes_list hlegal (describes_nil.ofItems hitems huniform.here)
    | compound entries =>
      exact describes_compound hlegal.1 fun e he =>
        ih e.2 (List.mem_map_of_mem he) (huniform.entry he) (hlegal.2 e he).2
    | _ => exact .scalar rfl nofun nofun

theorem serves_of? {t : Tag} (hlegal : t.All Tag.Legal) (huniform : t.All Tag.Uniform)
    (hend : t.kind ≠ .endMark) : Serves (of? t) t :=
  (describes_of? hlegal huniform hend).serves t List.mem_cons_self

end Schema

end MinecraftWire.Nbt
