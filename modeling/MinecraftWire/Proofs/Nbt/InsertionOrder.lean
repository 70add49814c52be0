import MinecraftWire.Proofs.Nbt.Container

/-! A compound as a map that keeps its order. Operations follow each other on one compound and on a
plain list of names and values, where a child is added behind the others, and one that is taken out
leaves the others as they stand. The two give the same answers and hold the same children, and at
every point the index of the compound tells just where its names stand. -/

namespace MinecraftWire.Nbt

/-- What can be done to a compound. An extension is an insertion that gives up a compound which does
not take the child. -/
inductive Operation where
  | insert (name : String) (t : Tag)
  | extend (name : String) (t : Tag)
  | remove (name : String)
  | replace (name : String) (t : Tag)
  | get (name : String)
  | contains (name : String)

/-- What an operation tells. -/
inductive Answer where
  | inserted (outcome : Except Fault Unit)
  | child (t : Option Tag)
  | present (b : Bool)

namespace Operation

/-- The name under which a child may be added. -/
def added? : Operation → Option String
  | insert name _ | extend name _ => some name
  | remove _ | replace _ _ | get _ | contains _ => none

variable {σ : Type}

/-- Operations one after another, as long as there is something to perform them on. -/
def run (perform : σ → Operation → Answer × Option σ) :
    List Operation → σ → List Answer × Option σ
  | [], s => ([], some s)
  | op :: ops, s =>
    let step := perform s op
    let rest := step.2.elim ([], none) fun s => run perform ops s
    (step.1 :: rest.1, rest.2)

theorem last_cons (perform : σ → Operation → Answer × Option σ) (op : Operation)
    (ops : List Operation) (s : σ) :
    (run perform (op :: ops) s).2 = (perform s op).2.bind fun s => (run perform ops s).2 := by
  show ((perform s op).2.elim ([], none) fun s => run perform ops s).2 = _
  rcases (perform s op).2 with _ | left <;> rfl

/-- What agrees in one operation agrees in many. -/
theorem run_rel {τ : Type} {R : σ → τ → Prop} {f : σ → Operation → Answer × Option σ}
    {g : τ → Operation → Answer × Option τ}
    (hstep : ∀ {s : σ} {t : τ}, R s t →
      ∀ op, (f s op).1 = (g t op).1 ∧ Option.Rel R (f s op).2 (g t op).2)
    {s : σ} {t : τ} (h : R s t) (ops : List Operation) :
    (run f ops s).1 = (run g ops t).1 ∧ Option.Rel R (run f ops s).2 (run g ops t).2 := by
  induction ops generalizing s t with
  | nil => exact ⟨rfl, .some h⟩
  | cons op ops ih =>
    obtain ⟨hanswer, hleft⟩ := hstep h op
    simp only [run, hanswer]
    generalize (f s op).2 = left, (g t op).2 = left' at hleft
    cases hleft with
    | none => exact ⟨rfl, .none⟩
    | some h => exact ⟨congrArg _ (ih h).1, (ih h).2⟩

end Operation

/-! ### The list -/

/-- Children by name, in order. -/
abbrev Association := List (String × Tag)

namespace Association

/-- Why a child is not added. -/
def refusal? (name : String) (t : Tag) (l : Association) : Option Fault :=
  if name = "" then some (.structural .emptyName)
  else if t.kind = .endMark then some (.structural (.endChild name))
  else if name ∈ l.map Prod.fst then some (.structural (.duplicateChild name))
  else none

def remove (name : String) (l : Association) : Association :=
  l.eraseP (·.1 = name)

def replace (name : String) (t : Tag) (l : Association) : Association :=
  l.map fun e => if e.1 = name then (name, t) else e

def perform (l : Association) : Operation → Answer × Option Association
  | .insert name t =>
    match l.refusal? name t with
    | some fault => (.inserted (.error fault), some l)
    | none => (.inserted (.ok ()), some (l ++ [(name, t)]))
  | .extend name t =>
    match l.refusal? name t with
    | some fault => (.inserted (.error fault), none)
    | none => (.inserted (.ok ()), some (l ++ [(name, t)]))
  | .remove name => (.child (l.lookup name), some (l.remove name))
  | .replace name t => (.child (l.lookup name), some (l.replace name t))
  | .get name => (.child (l.lookup name), some l)
  | .contains name => (.present (l.lookup name).isSome, some l)

/-! ### Where a name stands in the list -/

variable {name : String} {t : Tag} {l front back : Association}

theorem lookup_of_absent (h : ∀ e ∈ l, e.1 ≠ name) : l.lookup name = none := by
  rw [List.lookup_eq_none_iff]
  intro e he
  simpa using (h e he).symm

theorem remove_of_absent (h : ∀ e ∈ l, e.1 ≠ name) : l.remove name = l :=
  List.eraseP_of_forall_not fun e he => by simpa using h e he

theorem replace_of_absent (h : ∀ e ∈ l, e.1 ≠ name) (t : Tag) : l.replace name t = l := by
  rw [replace, List.map_congr_left fun e he => if_neg (h e he), List.map_id'']
  exact fun _ => rfl

theorem lookup_split (h : ∀ e ∈ front, e.1 ≠ name) :
    List.lookup name (front ++ (name, t) :: back) = some t := by
  rw [List.lookup_eq_some_iff]
  exact ⟨front, back, rfl, fun e he => by simpa using (h e he).symm⟩

theorem remove_split (h : ∀ e ∈ front, e.1 ≠ name) :
    remove name (front ++ (name, t) :: back) = front ++ back := by
  rw [remove, List.eraseP_append_right _ fun e he => by simpa using h e he,
    List.eraseP_cons_of_pos (by simp)]

theorem replace_split (h : ∀ e ∈ front ++ back, e.1 ≠ name) (u : Tag) :
    replace name u (front ++ (name, t) :: back) = front ++ (name, u) :: back := by
  rw [List.forall_mem_append] at h
  have hfront := replace_of_absent h.1 u
  have hback := replace_of_absent h.2 u
  rw [replace] at hfront hback ⊢
  rw [List.map_append, List.map_cons, hfront, hback, if_pos rfl]

theorem refusal?_eq_none_iff : l.refusal? name t = none ↔
    name ≠ "" ∧ t.kind ≠ .endMark ∧ name ∉ l.map Prod.fst := by
  unfold refusal?
  split_ifs <;> simp_all

theorem map_fst_replace (name : String) (t : Tag) (l : Association) :
    (l.replace name t).map Prod.fst = l.map Prod.fst := by
  rw [replace, List.map_map]
  refine List.map_congr_left fun e _ => ?_
  show (if e.1 = name then (name, t) else e).1 = e.1
  split
  · rename_i h
    exact h.symm
  · rfl

/-- What an operation leaves. -/
theorem perform_cases {op : Operation} {l' : Association} (h : (l.perform op).2 = some l') :
    l' = l ∨
    (∃ name t, op.added? = some name ∧ l.refusal? name t = none ∧ l' = l ++ [(name, t)]) ∨
    (∃ name, l' = l.remove name) ∨ ∃ name t, l' = l.replace name t := by
  cases op with
  | insert name t =>
    rcases hrefusal : l.refusal? name t with _ | fault
    · simp only [perform, hrefusal, Option.some.injEq] at h
      exact .inr (.inl ⟨name, t, rfl, hrefusal, h.symm⟩)
    · simp only [perform, hrefusal, Option.some.injEq] at h
      exact .inl h.symm
  | extend name t =>
    rcases hrefusal : l.refusal? name t with _ | fault
    · simp only [perform, hrefusal, Option.some.injEq] at h
      exact .inr (.inl ⟨name, t, rfl, hrefusal, h.symm⟩)
    · simp [perform, hrefusal] at h
  | remove name => exact .inr (.inr (.inl ⟨name, (Option.some.inj h).symm⟩))
  | replace name t => exact .inr (.inr (.inr ⟨name, t, (Option.some.inj h).symm⟩))
  | get name => exact .inl (Option.some.inj h).symm
  | contains name => exact .inl (Option.some.inj h).symm

/-- A name is there because it was, or because a child was added under it. -/
theorem mem_names_of_perform {op : Operation} {l' : Association} (h : (l.perform op).2 = some l')
    (hname : name ∈ l'.map Prod.fst) :
    name ∈ l.map Prod.fst ∨ op.added? = some name ∧ name ≠ "" := by
  rcases perform_cases h with rfl | ⟨other, t, hadded, hrefusal, rfl⟩ | ⟨other, rfl⟩ |
    ⟨other, t, rfl⟩
  · exact .inl hname
  · rw [List.map_append, List.mem_append, List.map_singleton, List.mem_singleton] at hname
    rcases hname with hname | rfl
    · exact .inl hname
    · exact .inr ⟨hadded, (refusal?_eq_none_iff.mp hrefusal).1⟩
  · exact .inl ((List.eraseP_sublist.map Prod.fst).mem hname)
  · exact .inl (map_fst_replace other t l ▸ hname)

theorem mem_names_of_run {ops : List Operation} {l' : Association}
    (h : (Operation.run perform ops l).2 = some l') (hname : name ∈ l'.map Prod.fst) :
    name ∈ l.map Prod.fst ∨ (∃ op ∈ ops, op.added? = some name) ∧ name ≠ "" := by
  induction ops generalizing l with
  | nil =>
    obtain rfl := Option.some.inj h
    exact .inl hname
  | cons op ops ih =>
    rw [Operation.last_cons, Option.bind_eq_some_iff] at h
    obtain ⟨left, hleft, hlast⟩ := h
    rcases ih hlast with hname | ⟨⟨later, hlater, hadded⟩, hname⟩
    · rcases mem_names_of_perform hleft hname with hname | ⟨hadded, hname⟩
      · exact .inl hname
      · exact .inr ⟨⟨op, List.mem_cons_self, hadded⟩, hname⟩
    · exact .inr ⟨⟨later, List.mem_cons_of_mem _ hlater, hadded⟩, hname⟩

end Association

/-! ### The compound -/

namespace Compound

/-- Insertion into a compound that is there whatever comes of it. -/
def insertInPlace (name : String) (t : Tag) : EStateM Fault Compound Unit := do
  if name.isEmpty then throw (.structural .emptyName)
  if t.kind = .endMark then throw (.structural (.endChild name))
  if (← get).contains name then throw (.structural (.duplicateChild name))
  modify fun c => { c with index := c.index.insert name c.entries.size }
  modify fun c => { c with entries := c.entries.push (name, t) }

def perform (c : Compound) : Operation → Answer × Option Compound
  | .insert name t =>
    match (insertInPlace name t).run c with
    | .ok _ c => (.inserted (.ok ()), some c)
    | .error fault c => (.inserted (.error fault), some c)
  | .extend name t =>
    match (insertInPlace name t).run c with
    | .ok _ c => (.inserted (.ok ()), some c)
    | .error fault _ => (.inserted (.error fault), none)
  | .remove name => (c.remove name).map .child some
  | .replace name t => (c.replace name t).map .child some
  | .get name => (.child (c.get? name), some c)
  | .contains name => (.present (c.contains name), some c)

variable {c c' : Compound} {l : Association} {name : String} {t : Tag}

/-- An insertion that fails leaves the compound alone. -/
theorem run_insertInPlace (name : String) (t : Tag) (c : Compound) :
    (insertInPlace name t).run c =
      match c.insert name t with
      | .ok c' => .ok () c'
      | .error fault => .error fault c := by
  unfold insertInPlace insert
  by_cases hname : name.isEmpty
  · simp [hname]
  by_cases hend : t.kind = .endMark
  · simp [hname, hend]
  by_cases hpresent : name ∈ c.index <;> simp [contains, hname, hend, hpresent]

/-- The compound has the children of the list, and its index knows their places. -/
structure Keeps (c : Compound) (l : Association) : Prop where
  coherent : c.Coherent
  entries : c.entries.toList = l

theorem keeps_empty : empty.Keeps [] :=
  ⟨coherent_empty, rfl⟩

theorem Keeps.names (h : c.Keeps l) : c.names = l.map Prod.fst := by
  rw [Compound.names, h.entries]

/-- A name stands nowhere, or at one place. -/
theorem Keeps.split (h : c.Keeps l) (name : String) :
    (c.index[name]? = none ∧ ∀ e ∈ l, e.1 ≠ name) ∨
    ∃ front t back, l = front ++ (name, t) :: back ∧ c.index[name]? = some front.length ∧
      ∀ e ∈ front ++ back, e.1 ≠ name := by
  by_cases hname : name ∈ c.names
  · right
    rw [h.names] at hname
    obtain ⟨⟨name, t⟩, hmem, rfl⟩ := List.mem_map.mp hname
    obtain ⟨front, back, rfl⟩ := List.append_of_mem hmem
    refine ⟨front, t, back, rfl, ?_, fun e he heq => ?_⟩
    · rw [h.coherent, h.names]
      simp
    · have hnodup := h.coherent.nodup
      rw [h.names, List.map_append, List.map_cons, List.nodup_middle, List.nodup_cons,
        ← List.map_append] at hnodup
      exact hnodup.1 (heq ▸ List.mem_map_of_mem he)
  · left
    constructor
    · rw [← h.coherent.contains_iff, contains, Std.HashMap.contains_iff_mem] at hname
      exact Std.HashMap.getElem?_eq_none hname
    · rintro e he rfl
      exact hname (h.names ▸ List.mem_map_of_mem he)

theorem Keeps.get? (h : c.Keeps l) (name : String) : c.get? name = l.lookup name := by
  rcases h.split name with ⟨hi, habsent⟩ | ⟨front, t, back, rfl, hi, hothers⟩
  · rw [Compound.get?, hi, Association.lookup_of_absent habsent]
  · rw [List.forall_mem_append] at hothers
    rw [Association.lookup_split hothers.1, Compound.get?, hi]
    change c.entries[front.length]?.map Prod.snd = some t
    rw [← Array.getElem?_toList, h.entries]
    simp

theorem Keeps.contains (h : c.Keeps l) (name : String) :
    c.contains name = (l.lookup name).isSome := by
  rw [Bool.eq_iff_iff, h.coherent.contains_iff, h.names, ← h.get?, Option.isSome_iff_exists]
  simp [h.coherent.get?_eq_some_iff, h.entries]

theorem Keeps.insert (h : c.Keeps l) (name : String) (t : Tag) :
    (∃ fault, l.refusal? name t = some fault ∧ c.insert name t = .error fault) ∨
    l.refusal? name t = none ∧ ∃ c', c.insert name t = .ok c' ∧ c'.Keeps (l ++ [(name, t)]) := by
  rcases hrefusal : l.refusal? name t with _ | fault
  · obtain ⟨hname, hend, hnew⟩ := Association.refusal?_eq_none_iff.mp hrefusal
    rw [← h.names, ← h.coherent.contains_iff, Bool.not_eq_true] at hnew
    have hinsert := insert_eq_ok_iff.mpr ⟨hname, hend, hnew, rfl⟩
    refine .inr ⟨rfl, _, hinsert, h.coherent.insert hinsert, ?_⟩
    rw [Array.toList_push, h.entries]
  · refine .inl ⟨fault, rfl, ?_⟩
    have hpresent : c.index.contains name ↔ name ∈ l.map Prod.fst := by
      rw [← h.names]
      exact h.coherent.contains_iff
    rw [Association.refusal?] at hrefusal
    rw [Compound.insert]
    simp only [String.isEmpty_iff, hpresent]
    split_ifs at hrefusal ⊢ <;> simp_all

theorem fst_remove (c : Compound) (name : String) : (c.remove name).1 = c.get? name := by
  unfold remove Compound.get?
  split <;> rfl

theorem fst_replace (c : Compound) (name : String) (t : Tag) :
    (c.replace name t).1 = c.get? name := by
  unfold replace Compound.get?
  split <;> rfl

theorem Keeps.remove (h : c.Keeps l) (name : String) : (c.remove name).2.Keeps (l.remove name) := by
  refine ⟨h.coherent.remove name, ?_⟩
  rcases h.split name with ⟨hi, habsent⟩ | ⟨front, t, back, rfl, hi, hothers⟩
  · rw [remove_of_index_none hi, Association.remove_of_absent habsent, h.entries]
  · rw [List.forall_mem_append] at hothers
    rw [entries_remove hi, Association.remove_split hothers.1, h.entries,
      List.eraseIdx_append_of_length_le (Nat.le_refl _), Nat.sub_self, List.eraseIdx_cons_zero]

theorem Keeps.replace (h : c.Keeps l) (name : String) (u : Tag) :
    (c.replace name u).2.Keeps (l.replace name u) := by
  refine ⟨h.coherent.replace name u, ?_⟩
  rcases h.split name with ⟨hi, habsent⟩ | ⟨front, t, back, rfl, hi, hothers⟩
  · rw [replace_of_index_none hi, Association.replace_of_absent habsent, h.entries]
  · rw [entries_replace hi, Association.replace_split hothers, h.entries,
      List.modify_eq_take_drop, List.take_left, List.drop_left]
    rfl

/-! ### One operation, and many -/

theorem perform_insert_of_refused {fault : Fault} (h : c.insert name t = .error fault) :
    c.perform (.insert name t) = (.inserted (.error fault), some c) ∧
      c.perform (.extend name t) = (.inserted (.error fault), none) := by
  simp only [perform, run_insertInPlace, h, and_self]

theorem perform_insert_of_taken (h : c.insert name t = .ok c') :
    c.perform (.insert name t) = (.inserted (.ok ()), some c') ∧
      c.perform (.extend name t) = (.inserted (.ok ()), some c') := by
  simp only [perform, run_insertInPlace, h, and_self]

theorem refused_iff {fault : Fault} :
    c.perform (.insert name t) = (.inserted (.error fault), some c) ∧
        c.perform (.extend name t) = (.inserted (.error fault), none) ↔
      c.insert name t = .error fault := by
  refine ⟨fun h => ?_, perform_insert_of_refused⟩
  rcases hinsert : c.insert name t with other | c'
  · rw [(perform_insert_of_refused hinsert).1] at h
    simpa using h.1
  · rw [(perform_insert_of_taken hinsert).1] at h
    simp at h

theorem Keeps.perform (h : c.Keeps l) (op : Operation) :
    (c.perform op).1 = (l.perform op).1 ∧ Option.Rel Keeps (c.perform op).2 (l.perform op).2 := by
  cases op with
  | insert name t =>
    rcases h.insert name t with ⟨fault, hrefusal, hinsert⟩ | ⟨hrefusal, c', hinsert, hkeeps⟩
    · rw [(perform_insert_of_refused hinsert).1, Association.perform, hrefusal]
      exact ⟨rfl, .some h⟩
    · rw [(perform_insert_of_taken hinsert).1, Association.perform, hrefusal]
      exact ⟨rfl, .some hkeeps⟩
  | extend name t =>
    rcases h.insert name t with ⟨fault, hrefusal, hinsert⟩ | ⟨hrefusal, c', hinsert, hkeeps⟩
    · rw [(perform_insert_of_refused hinsert).2, Association.perform, hrefusal]
      exact ⟨rfl, .none⟩
    · rw [(perform_insert_of_taken hinsert).2, Association.perform, hrefusal]
      exact ⟨rfl, .some hkeeps⟩
  | remove name =>
    exact ⟨congrArg Answer.child ((fst_remove c name).trans (h.get? name)), .some (h.remove name)⟩
  | replace name t =>
    exact ⟨congrArg Answer.child ((fst_replace c name t).trans (h.get? name)),
      .some (h.replace name t)⟩
  | get name => exact ⟨congrArg Answer.child (h.get? name), .some h⟩
  | contains name => exact ⟨congrArg Answer.present (h.contains name), .some h⟩

theorem Keeps.run (h : c.Keeps l) (ops : List Operation) :
    (Operation.run Compound.perform ops c).1 = (Operation.run Association.perform ops l).1 ∧
      Option.Rel Keeps (Operation.run Compound.perform ops c).2
        (Operation.run Association.perform ops l).2 :=
  Operation.run_rel (fun h op => h.perform op) h ops

/-- A compound that is left after some operations keeps the list that is left. -/
theorem Keeps.exists_last (h : c.Keeps l) {ops : List Operation}
    (hlast : (Operation.run Compound.perform ops c).2 = some c') :
    ∃ l', (Operation.run Association.perform ops l).2 = some l' ∧ c'.Keeps l' := by
  obtain ⟨-, hrel⟩ := h.run ops
  rw [hlast] at hrel
  rcases hlist : (Operation.run Association.perform ops l).2 with _ | l' <;> rw [hlist] at hrel
  · cases hrel
  · cases hrel with
    | some h => exact ⟨l', rfl, h⟩

/-! ### What is seen of a compound -/

/-- All that a compound tells is what the list tells. -/
structure Mirrors (c : Compound) (l : Association) : Prop where
  index (name : String) (i : Nat) : c.index[name]? = some i ↔ ∃ t, l[i]? = some (name, t)
  iter : c.entries.toList = l
  size : c.size = l.length
  get (name : String) : c.get? name = l.lookup name
  contains (name : String) : c.contains name = (l.lookup name).isSome

theorem Keeps.mirrors (h : c.Keeps l) : c.Mirrors l where
  index name i := by
    rw [h.coherent, h.names, List.getElem?_map, Option.map_eq_some_iff]
    simp
  iter := h.entries
  size := by rw [size, ← Array.length_toList, h.entries]
  get := h.get?
  contains := h.contains

theorem insert_fails_iff : (∃ fault, c.insert name t = .error fault) ↔
    name = "" ∨ t.kind = .endMark ∨ c.contains name = true := by
  unfold insert contains
  split_ifs <;> simp_all

/-- A name is gone once its child was taken out. -/
theorem Keeps.not_mem_remove (h : c.Keeps l) (name : String) :
    name ∉ (l.remove name).map Prod.fst := by
  rw [List.mem_map]
  rintro ⟨e, he, hname⟩
  rcases h.split name with ⟨-, habsent⟩ | ⟨front, t, back, rfl, -, hothers⟩
  · rw [Association.remove_of_absent habsent] at he
    exact habsent e he hname
  · rw [Association.remove_split (List.forall_mem_append.mp hothers).1] at he
    exact hothers e he hname

/-- A child that was taken out is taken again, behind all others, whatever was done in between. -/
theorem Keeps.insert_again (h : c.Keeps l) (hname : name ≠ "") (hend : t.kind ≠ .endMark)
    {later : List Operation} (hlater : ∀ op ∈ later, op.added? ≠ some name)
    (hlast : (Operation.run Compound.perform (.remove name :: later) c).2 = some c') :
    ∃ c'', c'.insert name t = .ok c'' ∧
      c''.entries.toList = c'.entries.toList ++ [(name, t)] := by
  obtain ⟨l', hlist, hkeeps⟩ := (h.remove name).exists_last (Operation.last_cons _ _ _ c ▸ hlast)
  have habsent : name ∉ l'.map Prod.fst := fun hmem => by
    rcases Association.mem_names_of_run hlist hmem with hmem | ⟨⟨op, hop, hadded⟩, -⟩
    · exact h.not_mem_remove name hmem
    · exact hlater op hop hadded
  rcases hkeeps.insert name t with ⟨fault, hrefusal, -⟩ | ⟨-, c'', hinsert, hkeeps'⟩
  · rw [Association.refusal?_eq_none_iff.mpr ⟨hname, hend, habsent⟩] at hrefusal
    contradiction
  · exact ⟨c'', hinsert, by rw [hkeeps'.entries, hkeeps.entries]⟩

/-- After any operations on an empty compound the answers are those of the list, and so is all that
the compound tells. A child without a name, one whose name is there and an end mark are refused, and
a refusal changes nothing. A name that was taken out can be added again, and stands at the end. -/
theorem mirrors_association (ops : List Operation) :
    (Operation.run perform ops empty).1 = (Operation.run Association.perform ops []).1 ∧
    Option.Rel Mirrors (Operation.run perform ops empty).2
      (Operation.run Association.perform ops []).2 ∧
    ∀ c ∈ (Operation.run perform ops empty).2,
      (∀ name t, name = "" ∨ t.kind = .endMark ∨ c.contains name = true ↔
        ∃ fault, c.perform (.insert name t) = (.inserted (.error fault), some c) ∧
          c.perform (.extend name t) = (.inserted (.error fault), none)) ∧
      ∀ name, c.contains name = true → ∀ later, (∀ op ∈ later, op.added? ≠ some name) →
        ∀ c' ∈ (Operation.run perform (.remove name :: later) c).2, ∀ t, t.kind ≠ .endMark →
          ∃ c'', c'.perform (.insert name t) = (.inserted (.ok ()), some c'') ∧
            c''.entries.toList = c'.entries.toList ++ [(name, t)] := by
  obtain ⟨hanswers, hlast⟩ := keeps_empty.run ops
  refine ⟨hanswers, ?_, fun c hc => ⟨fun name t => ?_, ?_⟩⟩
  · generalize (Operation.run perform ops empty).2 = last,
      (Operation.run Association.perform ops []).2 = last' at hlast
    cases hlast with
    | none => exact .none
    | some h => exact .some h.mirrors
  · rw [← insert_fails_iff]
    exact exists_congr fun fault => refused_iff.symm
  · obtain ⟨l, hlist, hkeeps⟩ := keeps_empty.exists_last hc
    intro name hpresent later hlater c' hc' t hend
    have hname : name ≠ "" := by
      rw [hkeeps.coherent.contains_iff, hkeeps.names] at hpresent
      exact (Association.mem_names_of_run hlist hpresent).resolve_left List.not_mem_nil |>.2
    obtain ⟨c'', hinsert, hentries⟩ := hkeeps.insert_again hname hend hlater hc'
    exact ⟨c'', (perform_insert_of_taken hinsert).1, hentries⟩

theorem mirrors_association_reinsertion :
    (Operation.run perform [.insert "a" (.int 1), .insert "b" (.int 2), .insert "c" (.int 3),
      .remove "a", .get "c", .insert "a" (.int 4), .insert "b" (.int 5), .get "a"] empty).1 =
    [.inserted (.ok ()), .inserted (.ok ()), .inserted (.ok ()), .child (some (.int 1)),
      .child (some (.int 3)), .inserted (.ok ()),
      .inserted (.error (.structural (.duplicateChild "b"))), .child (some (.int 4))] := by
  rw [(mirrors_association _).1]
  rfl

end Compound

end MinecraftWire.Nbt
