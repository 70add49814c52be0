import MinecraftWire.Nbt.Schema
import MinecraftWire.Proofs.Lookup
import MinecraftWire.Proofs.Nbt.Paths

/-! Merging schemas. Compounds are merged field by field, like two schemas of which one may be
missing, and a merged schema tells at each path what one of the two told there. For this the fields
of a compound need different names, which merging keeps. -/

namespace MinecraftWire.Nbt.Schema

/-! ### Kinds at paths -/

/-- The kind that a schema tells at a path. -/
def kindAt? (s : Schema) : List Step → Option TagKind
  | [] => some s.kind
  | .item :: path =>
    match s with
    | list element => element.kindAt? path
    | _ => none
  | .field name :: path =>
    match s with
    | compound fields => (fields.lookup name).bind fun s => s.kindAt? path
    | _ => none

theorem kind_ne_endMark (s : Schema) : s.kind ≠ .endMark := by
  cases s <;> exact nofun

theorem kindAt?_of_scalar {s : Schema} (hlist : s.kind ≠ .list) (hcompound : s.kind ≠ .compound)
    (step : Step) (path : List Step) : s.kindAt? (step :: path) = none := by
  cases s with
  | list element => exact absurd rfl hlist
  | compound fields => exact absurd rfl hcompound
  | _ => cases step <;> rfl

/-! ### Merging -/

/-- Two schemas that are merged are both lists or both compounds, or the first remains. -/
theorem merge_cases (a b : Schema) :
    (∃ element other, a = list element ∧ b = list other ∧ a.merge b = list (element.merge other)) ∨
    (∃ fields more, a = compound fields ∧ b = compound more ∧
      a.merge b = compound (mergeFields fields more)) ∨ a.merge b = a := by
  cases b with
  | list other =>
    cases a with
    | list element => exact .inl ⟨element, other, rfl, rfl, rfl⟩
    | _ => exact .inr (.inr rfl)
  | compound more =>
    cases a with
    | compound fields => exact .inr (.inl ⟨fields, more, rfl, rfl, rfl⟩)
    | _ => exact .inr (.inr rfl)
  | _ => exact .inr (.inr rfl)

theorem kind_merge (a b : Schema) : (a.merge b).kind = a.kind := by
  rcases merge_cases a b with ⟨_, _, rfl, -, h⟩ | ⟨_, _, rfl, -, h⟩ | h <;> rw [h] <;> rfl

theorem mergeOptional_none (o : Option Schema) : mergeOptional o none = o := by
  cases o <;> rfl

theorem lookup_upsert (name : String) (fresh : Schema) (combine : Schema → Schema)
    (fields : List (String × Schema)) (n : String) :
    (upsert name fresh combine fields).lookup n =
      if n = name then some ((fields.lookup n).elim fresh combine) else fields.lookup n := by
  induction fields with
  | nil => exact lookup_cons_eq_ite name fresh [] n
  | cons field fields ih =>
    obtain ⟨other, s⟩ := field
    rw [upsert]
    split
    · rename_i hother
      subst hother
      by_cases h : n = other <;> simp [lookup_cons_eq_ite, h]
    · rename_i hother
      by_cases h : n = other
      · subst h
        simp [hother]
      · simp [lookup_cons_eq_ite, h, ih]

theorem map_fst_upsert (name : String) (fresh : Schema) (combine : Schema → Schema)
    (fields : List (String × Schema)) : (upsert name fresh combine fields).map Prod.fst =
      if name ∈ fields.map Prod.fst then fields.map Prod.fst
      else fields.map Prod.fst ++ [name] := by
  induction fields with
  | nil => rfl
  | cons field fields ih =>
    obtain ⟨other, s⟩ := field
    rw [upsert]
    split
    · rename_i hother
      simp [hother]
    · rename_i hother
      rw [List.map_cons, ih]
      by_cases h : name ∈ fields.map Prod.fst <;> simp_all [eq_comm]

theorem mem_upsert {name : String} {fresh : Schema} {combine : Schema → Schema}
    {fields : List (String × Schema)} {field : String × Schema}
    (h : field ∈ upsert name fresh combine fields) :
    field ∈ fields ∨ field = (name, fresh) ∨
      ∃ old, (name, old) ∈ fields ∧ field.2 = combine old := by
  induction fields with
  | nil => exact .inr (.inl (List.mem_singleton.mp h))
  | cons other fields ih =>
    rw [upsert] at h
    split at h
    · rename_i hother
      rcases List.mem_cons.mp h with rfl | h
      · exact .inr (.inr ⟨other.2, hother ▸ List.mem_cons_self, rfl⟩)
      · exact .inl (List.mem_cons_of_mem _ h)
    · rcases List.mem_cons.mp h with rfl | h
      · exact .inl List.mem_cons_self
      · rcases ih h with h | h | ⟨old, hold, h⟩
        · exact .inl (List.mem_cons_of_mem _ h)
        · exact .inr (.inl h)
        · exact .inr (.inr ⟨old, List.mem_cons_of_mem _ hold, h⟩)

/-- The kind of a schema of scalars tells the schema. -/
theorem eq_of_kind_eq {a b : Schema} (h : a.kind = b.kind) (hlist : a.kind ≠ .list)
    (hcompound : a.kind ≠ .compound) : a = b := by
  cases a <;> cases b <;> first | rfl | contradiction

theorem merge_of_scalar {a : Schema} (hlist : a.kind ≠ .list) (hcompound : a.kind ≠ .compound)
    (b : Schema) : a.merge b = a := by
  rcases merge_cases a b with ⟨_, _, rfl, -⟩ | ⟨_, _, rfl, -⟩ | h
  · exact absurd rfl hlist
  · exact absurd rfl hcompound
  · exact h

/-- Field by field, two compounds are merged like two schemas. -/
theorem lookup_mergeFields (fields : List (String × Schema)) {more : List (String × Schema)}
    (h : (more.map Prod.fst).Nodup) (n : String) :
    (mergeFields fields more).lookup n = mergeOptional (fields.lookup n) (more.lookup n) := by
  induction more generalizing fields with
  | nil => rw [mergeFields, List.lookup_nil, mergeOptional_none]
  | cons field more ih =>
    obtain ⟨name, s⟩ := field
    rw [List.map_cons, List.nodup_cons] at h
    rw [mergeFields, ih _ h.2, lookup_upsert]
    by_cases hname : n = name
    · subst hname
      rw [if_pos rfl, lookup_eq_none_of_not_mem h.1, mergeOptional_none, lookup_cons_eq_ite,
        if_pos rfl]
      cases fields.lookup n <;> rfl
    · rw [if_neg hname, lookup_cons_eq_ite, if_neg hname]

/-! ### Names of fields -/

/-- No compound in the schema has two fields of one name. -/
inductive Distinct : Schema → Prop where
  | scalar {s : Schema} (hlist : s.kind ≠ .list) (hcompound : s.kind ≠ .compound) : Distinct s
  | list {element : Schema} (h : element.Distinct) : Distinct (list element)
  | compound {fields : List (String × Schema)} (hnames : (fields.map Prod.fst).Nodup)
      (h : ∀ field ∈ fields, field.2.Distinct) : Distinct (compound fields)

theorem Distinct.element {element : Schema} (h : (Schema.list element).Distinct) :
    element.Distinct := by
  cases h with
  | scalar hlist _ => exact absurd rfl hlist
  | list h => exact h

theorem Distinct.fields {fields : List (String × Schema)} (h : (Schema.compound fields).Distinct) :
    (fields.map Prod.fst).Nodup ∧ ∀ field ∈ fields, field.2.Distinct := by
  cases h with
  | scalar _ hcompound => exact absurd rfl hcompound
  | compound hnames h => exact ⟨hnames, h⟩

theorem distinct_upsert {name : String} {fresh : Schema} {combine : Schema → Schema}
    {fields : List (String × Schema)} (h : (compound fields).Distinct) (hfresh : fresh.Distinct)
    (hcombine : ∀ old : Schema, old.Distinct → (combine old).Distinct) :
    (compound (upsert name fresh combine fields)).Distinct := by
  obtain ⟨hnames, hfields⟩ := h.fields
  refine .compound ?_ fun field hfield => ?_
  · rw [map_fst_upsert]
    split
    · exact hnames
    · rename_i hnew
      refine List.nodup_append.mpr ⟨hnames, List.nodup_singleton _, fun other hother n hn heq => ?_⟩
      exact hnew (heq.trans (List.mem_singleton.mp hn) ▸ hother)
  · rcases mem_upsert hfield with hold | rfl | ⟨old, hold, heq⟩
    · exact hfields field hold
    · exact hfresh
    · exact heq ▸ hcombine old (hfields _ hold)

theorem distinct_mergeFields {fields more : List (String × Schema)}
    (h : (compound fields).Distinct) (hmore : ∀ field ∈ more, field.2.Distinct)
    (hmerge : ∀ field ∈ more, ∀ old : Schema, old.Distinct → (old.merge field.2).Distinct) :
    (compound (mergeFields fields more)).Distinct := by
  induction more generalizing fields with
  | nil => exact h
  | cons field more ih =>
    rw [List.forall_mem_cons] at hmore hmerge
    exact ih (distinct_upsert h hmore.1 hmerge.1) hmore.2 hmerge.2

theorem distinct_merge {a b : Schema} (ha : a.Distinct) (hb : b.Distinct) :
    (a.merge b).Distinct := by
  induction hb generalizing a with
  | @scalar b hlist hcompound =>
    rcases merge_cases a b with ⟨_, _, -, rfl, -⟩ | ⟨_, _, -, rfl, -⟩ | h
    · exact absurd rfl hlist
    · exact absurd rfl hcompound
    · rw [h]
      exact ha
  | @list other _ ih =>
    cases a with
    | list element => exact .list (ih ha.element)
    | _ => exact ha
  | @compound more _ hmore ih =>
    cases a with
    | compound fields =>
      exact distinct_mergeFields ha hmore fun field hfield _ hold => ih field hfield hold
    | _ => exact ha

/-- What a merged schema tells, one of the two told. -/
theorem kindAt?_merge {a b : Schema} (hb : b.Distinct) {path : List Step} {kind : TagKind}
    (h : (a.merge b).kindAt? path = some kind) :
    a.kindAt? path = some kind ∨ b.kindAt? path = some kind := by
  induction path generalizing a b with
  | nil =>
    rw [kindAt?, kind_merge] at h
    exact .inl h
  | cons step path ih =>
    rcases merge_cases a b with ⟨element, other, rfl, rfl, hmerge⟩ |
      ⟨fields, more, rfl, rfl, hmerge⟩ | hmerge <;> rw [hmerge] at h
    · cases step with
      | field name => contradiction
      | item => exact ih hb.element h
    · cases step with
      | item => contradiction
      | field name =>
        obtain ⟨hnames, hmore⟩ := hb.fields
        change ((mergeFields fields more).lookup name).bind (fun s => s.kindAt? path) = _ at h
        show (fields.lookup name).bind _ = _ ∨ (more.lookup name).bind _ = _
        rw [lookup_mergeFields fields hnames] at h
        rcases hold : fields.lookup name with _ | old <;> rw [hold] at h
        · exact .inr h
        · rcases hnew : more.lookup name with _ | new <;> rw [hnew] at h
          · exact .inl h
          · exact ih (hmore _ (mem_of_lookup_eq_some hnew)) h
    · exact .inl h

end MinecraftWire.Nbt.Schema
