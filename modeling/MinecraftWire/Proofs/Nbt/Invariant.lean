import MinecraftWire.Proofs.Lookup
import MinecraftWire.Proofs.Nbt.Course
import MinecraftWire.Proofs.Reader.Orderly

/-! What holds at every point of the reading loop. The elements of an open list are of its kind, an
open compound holds entries under names of their own, and each open container awaits the one that
stands on it; by cases on the move this is preserved. From such a point the loop ends for a reason
that lies in its bytes. -/

namespace MinecraftWire.Nbt

open Reader

namespace Read

/-! ### Why a root is refused -/

/-- What is said where the loop itself would be wrong, whatever the bytes. -/
inductive Internal : MinecraftWire.Malformation → Prop where
  | notScalar (kind : TagKind) : Internal (.nbt (.notScalar kind))
  | namelessChild : Internal (.nbt .namelessChild)

/-- The refusals of a part of a tree. -/
inductive Rejected : Fault → Prop where
  | format {cause : MinecraftWire.Malformation} (h : ¬ Internal cause) : Rejected (.format cause)

/-- The names that a compound cannot take another child under. -/
inductive Clash (built : Compound) (name : String) : Breach → Prop where
  | empty (h : name = "") : Clash built name .emptyName
  | duplicate {t : Tag} (h : (name, t) ∈ built.entries.toList) :
      Clash built name (.duplicateChild name)

/-- The refusals of a tree. -/
inductive Refusal : Fault → Prop where
  | rejected {fault : Fault} (h : Rejected fault) : Refusal fault
  | clash {built : Compound} {name : String} {breach : Breach} (h : Clash built name breach) :
      Refusal (.structural breach)

theorem rejected_width (kind : String) (size n : Nat) : Rejected (.format (.width kind size n)) := by
  refine .format fun h => ?_
  cases h

theorem rejected_nbt {fault : Malformation} (hscalar : ∀ kind, fault ≠ .notScalar kind)
    (hname : fault ≠ .namelessChild) : Rejected (.format (.nbt fault)) := by
  refine .format fun h => ?_
  cases h with
  | notScalar kind => exact hscalar kind rfl
  | namelessChild => exact hname rfl

/-! ### Parts -/

theorem orderly_kind : Read.kind.Orderly Rejected := by
  refine (orderly_value UInt8 fun _ => rejected_width _ _ _).bind fun b => ?_
  refine orderly_lift fun fault h => ?_
  unfold TagKind.ofByte at h
  split at h
  · contradiction
  · exact Except.error.inj h ▸ rejected_nbt (by simp) (by simp)

theorem orderly_text : Read.text.Orderly Rejected := by
  refine (orderly_value Int16 fun _ => rejected_width _ _ _).bind fun length => ?_
  split
  · exact orderly_fail (rejected_nbt (by simp) (by simp))
  · refine (orderly_exactly _).bind fun bytes => orderly_lift fun fault h => ?_
    unfold decodeText at h
    split at h
    · contradiction
    · refine Except.error.inj h ▸ .format fun h => ?_
      cases h

theorem orderly_count (kind : TagKind) : (count kind).Orderly Rejected := by
  refine (orderly_value Int32 fun _ => rejected_width _ _ _).bind fun length => ?_
  split
  · exact orderly_fail (rejected_nbt (by simp) (by simp))
  · exact orderly_pure _

open FixedWidth in
theorem takeMany_eq_error {α : Type} [FixedWidth α] {acc : List α} {n : Nat} {bytes : Bytes}
    {fault : Fault} (h : takeMany α acc n bytes = .error fault) :
    ∃ bytes', fault = .format (refusal α bytes') := by
  induction n generalizing acc bytes with
  | zero => contradiction
  | succ n ih =>
    rw [takeMany] at h
    dsimp only at h
    rcases hfirst : take α (bytes.splitAt (size α)).1 with fault' | v <;> rw [hfirst] at h
    · obtain rfl := Except.error.inj h
      exact ⟨_, take_eq_error hfirst⟩
    · exact ih h

theorem orderly_array (α : Type) [FixedWidth α] (kind : TagKind)
    (h : ∀ bytes, Rejected (.format (FixedWidth.refusal α bytes))) :
    (array α kind).Orderly Rejected := by
  refine (orderly_count kind).bind fun n => (orderly_exactly _).bind fun bytes => ?_
  refine orderly_lift fun fault hfault => ?_
  obtain ⟨bytes', rfl⟩ := takeMany_eq_error hfault
  exact h bytes'

theorem orderly_scalar {kind : TagKind} (hlist : kind ≠ .list) (hcompound : kind ≠ .compound) :
    (scalar kind).Orderly Rejected := by
  cases kind with
  | list => exact absurd rfl hlist
  | compound => exact absurd rfl hcompound
  | endMark => exact orderly_pure _
  | string => exact orderly_text.map _
  | byteArray => exact (orderly_array Int8 _ fun _ => rejected_width _ _ _).map _
  | intArray => exact (orderly_array Int32 _ fun _ => rejected_width _ _ _).map _
  | longArray => exact (orderly_array Int64 _ fun _ => rejected_width _ _ _).map _
  | byte => exact (orderly_value Int8 fun _ => rejected_width _ _ _).map _
  | short => exact (orderly_value Int16 fun _ => rejected_width _ _ _).map _
  | int => exact (orderly_value Int32 fun _ => rejected_width _ _ _).map _
  | long => exact (orderly_value Int64 fun _ => rejected_width _ _ _).map _
  | float => exact (orderly_value Float32Bits fun _ => rejected_width _ _ _).map _
  | double => exact (orderly_value Float64Bits fun _ => rejected_width _ _ _).map _

theorem orderly_listHeading : listHeading.Orderly Rejected := by
  refine orderly_kind.bind fun element => (orderly_count .list).bind fun n => ?_
  split
  · exact orderly_fail (rejected_nbt (by simp) (by simp))
  · exact orderly_pure _

theorem orderly_childHeading : childHeading.Orderly Rejected := by
  refine orderly_kind.bind fun kind => ?_
  split
  · exact orderly_pure _
  · exact orderly_text.map _

theorem orderly_heading (header : Header) : (heading header).Orderly Rejected := by
  refine orderly_kind.bind fun kind => ?_
  split
  · exact orderly_pure _
  · cases header with
    | named => exact (orderly_text.map _).map _
    | unnamed => exact orderly_pure _

theorem kind_of_scalar {kind : TagKind} {s s' : Source} {t : Tag}
    (h : scalar kind s = (.ok t, s')) : t.kind = kind := by
  have hmap {α : Type} {r : Reader α} {make : α → Tag} (hmake : ∀ a, (make a).kind = kind)
      (h : (r >>= fun a => pure (make a)) s = (.ok t, s')) : t.kind = kind := by
    obtain ⟨a, _, -, h⟩ := bind_eq_ok h
    rw [← (pure_eq_ok h).1]
    exact hmake a
  cases kind with
  | endMark =>
    rw [← (pure_eq_ok h).1]
    rfl
  | list => exact absurd (congrArg Prod.fst h) nofun
  | compound => exact absurd (congrArg Prod.fst h) nofun
  | _ => exact hmap (fun _ => rfl) h

theorem of_listHeading {s s' : Source} {element : TagKind} {n : Nat}
    (h : listHeading s = (.ok (element, n), s')) : element = .endMark → n = 0 := by
  obtain ⟨element', _, -, h⟩ := bind_eq_ok h
  obtain ⟨n', _, -, h⟩ := bind_eq_ok h
  split at h
  · exact absurd (congrArg Prod.fst h) nofun
  · rename_i hend
    obtain ⟨rfl, rfl⟩ := Prod.mk.inj (pure_eq_ok h).1
    rintro rfl
    exact Nat.eq_zero_of_not_pos fun hn => hend ⟨rfl, hn⟩

theorem kind_of_childHeading {s s' : Source} {kind : TagKind} {name : String}
    (h : childHeading s = (.ok (some (kind, name)), s')) : kind ≠ .endMark := by
  obtain ⟨kind', _, -, h⟩ := bind_eq_ok h
  split at h
  · exact absurd (congrArg Prod.fst h) nofun
  · rename_i hkind
    obtain ⟨name', _, -, h⟩ := bind_eq_ok h
    obtain ⟨rfl, -⟩ := Prod.mk.inj (Option.some.inj (pure_eq_ok h).1)
    exact hkind

/-! ### Open containers -/

/-- The kind of the tag that a container becomes. -/
def Open.kind : Open → TagKind
  | .list .. => .list
  | .compound .. => .compound

/-- A container all of whose children so far are attached. -/
def Open.Ready : Open → Prop
  | .list element left items =>
    (∀ t ∈ items, t.kind = element ∧ element ≠ .endMark) ∧ (element = .endMark → left = 0)
  | .compound built _ => ∃ entries, built.Holds entries

/-- A container that goes on when it is given a tag of the kind. -/
def Open.Awaits (kind : TagKind) : Open → Prop
  | .list element _ items => element = kind ∧ ∀ t ∈ items, t.kind = element ∧ element ≠ .endMark
  | .compound built name => name.isSome ∧ ∃ entries, built.Holds entries

/-- Each container awaits what stands on it, and the innermost a tag of the kind. -/
inductive Nested : TagKind → List Open → Prop where
  | root {kind : TagKind} (hkind : kind ≠ .endMark) : Nested kind []
  | inside {kind : TagKind} {o : Open} {stack : List Open} (hkind : kind ≠ .endMark)
      (ho : o.Awaits kind) (hstack : Nested o.kind stack) : Nested kind (o :: stack)

theorem Nested.kind_ne {kind : TagKind} {stack : List Open} (h : Nested kind stack) :
    kind ≠ .endMark := by
  cases h with
  | root hkind => exact hkind
  | inside hkind => exact hkind

theorem Nested.of_cons {kind : TagKind} {o : Open} {stack : List Open}
    (h : Nested kind (o :: stack)) : o.Awaits kind ∧ Nested o.kind stack := by
  cases h with
  | inside hkind ho hstack => exact ⟨ho, hstack⟩

theorem exists_of_contains {built : Compound} {entries : List (String × Tag)}
    (hbuilt : built.Holds entries) {name : String} (h : built.index.contains name) :
    ∃ t, (name, t) ∈ built.entries.toList := by
  rw [hbuilt.2, Option.isSome_iff_exists] at h
  obtain ⟨t, ht⟩ := h
  exact ⟨t, hbuilt.1 ▸ mem_of_lookup_eq_some ht⟩

/-- The compound takes a child, or the name clashes. -/
theorem insert_cases {built : Compound} {entries : List (String × Tag)}
    (hbuilt : built.Holds entries) (name : String) {t : Tag} (ht : t.kind ≠ .endMark) :
    (∃ built' : Compound, built.insert name t = .ok built' ∧
      built'.Holds (entries ++ [(name, t)])) ∨
    ∃ breach, built.insert name t = .error (.structural breach) ∧ Clash built name breach := by
  by_cases hempty : name.isEmpty
  · exact .inr ⟨_, by rw [Compound.insert, if_pos hempty], .empty (String.isEmpty_iff.mp hempty)⟩
  by_cases hcontains : built.index.contains name
  · obtain ⟨u, hu⟩ := exists_of_contains hbuilt hcontains
    refine .inr ⟨_, ?_, .duplicate hu⟩
    rw [Compound.insert, if_neg hempty, if_neg ht, if_pos hcontains]
  · refine .inl (hbuilt.insert ?_ ht)
    rw [← hbuilt.2, not_or]
    exact ⟨hempty, hcontains⟩

/-- A container takes the tag that it awaits, unless the tag is a child whose name clashes. -/
theorem Open.Awaits.accept_cases {o : Open} {t : Tag} (h : o.Awaits t.kind)
    (ht : t.kind ≠ .endMark) :
    (∃ o', o.accept t = .ok o' ∧ o'.Ready ∧ o'.kind = o.kind) ∨
    ∃ built name breach, o = .compound built (some name) ∧
      o.accept t = .error (.structural breach) ∧ Clash built name breach := by
  rcases o with ⟨element, left, items⟩ | ⟨built, name⟩
  · obtain ⟨rfl, hitems⟩ := h
    refine .inl ⟨_, rfl, ⟨?_, fun hend => absurd hend ht⟩, rfl⟩
    exact List.forall_mem_cons.mpr ⟨⟨rfl, ht⟩, hitems⟩
  · obtain ⟨hname, entries, hbuilt⟩ := h
    obtain ⟨name, rfl⟩ := Option.isSome_iff_exists.mp hname
    rcases insert_cases hbuilt name ht with ⟨built', hinsert, hbuilt'⟩ | ⟨breach, hinsert, hclash⟩
    · exact .inl ⟨.compound built' none, by rw [Open.accept, hinsert]; rfl, ⟨_, hbuilt'⟩, rfl⟩
    · exact .inr ⟨built, name, breach, rfl, by rw [Open.accept, hinsert]; rfl, hclash⟩

/-! ### Points -/

/-- What holds at a point of the loop: a tag that is entered or complete is what the stack awaits,
and where there is none the innermost container has all its children so far. -/
inductive Sound : Point → Prop where
  | enter {kind : TagKind} {stack : List Open} {s : Source} (hstack : Nested kind stack) :
      Sound (.enter kind, stack, s)
  | complete {entered : TagKind} {t : Tag} {stack : List Open} {s : Source}
      (hstack : Nested t.kind stack) : Sound (.climb entered (some t), stack, s)
  | ready {entered : TagKind} {o : Open} {stack : List Open} {s : Source} (ho : o.Ready)
      (hstack : Nested o.kind stack) : Sound (.climb entered none, o :: stack, s)

theorem Sound.kind_ne {kind : TagKind} {stack : List Open} {s : Source}
    (h : Sound (.enter kind, stack, s)) : kind ≠ .endMark := by
  cases h with
  | enter hstack => exact hstack.kind_ne

section Climb

variable {entered : TagKind} {done : Option Tag} {top o : Open} {stack : List Open} {s : Source}

/-- What a container is given leaves it with all its children so far. -/
theorem Sound.attached (h : Sound (.climb entered done, top :: stack, s))
    (ho : top.acceptDone done = .ok o) : o.Ready ∧ Nested o.kind stack := by
  cases h with
  | ready htop hstack =>
    obtain rfl := Except.ok.inj ho
    exact ⟨htop, hstack⟩
  | complete hnested =>
    obtain ⟨hawaits, hstack⟩ := hnested.of_cons
    rcases hawaits.accept_cases hnested.kind_ne with
      ⟨o', haccept, hready, hsame⟩ | ⟨_, _, _, _, haccept, _⟩
    · obtain rfl := Except.ok.inj (haccept.symm.trans ho)
      exact ⟨hready, hsame ▸ hstack⟩
    · exact absurd (haccept.symm.trans ho) nofun

/-- A container refuses what it is given only where a child's name clashes. -/
theorem Sound.clash {fault : Fault} (h : Sound (.climb entered done, top :: stack, s))
    (hfault : top.acceptDone done = .error fault) :
    ∃ t built name breach, done = some t ∧ top = .compound built (some name) ∧
      fault = .structural breach ∧ Clash built name breach := by
  cases h with
  | ready htop hstack => exact absurd hfault nofun
  | @complete _ t _ _ hnested =>
    obtain ⟨hawaits, -⟩ := hnested.of_cons
    rcases hawaits.accept_cases hnested.kind_ne with
      ⟨_, haccept, _⟩ | ⟨built, name, breach, htop, haccept, hclash⟩
    · exact absurd (haccept.symm.trans hfault) nofun
    · have hbreach := Except.error.inj (haccept.symm.trans hfault)
      exact ⟨t, built, name, breach, rfl, htop, hbreach.symm, hclash⟩

/-- A list that has all its elements closes. -/
theorem Sound.closes {element : TagKind} {items : List Tag}
    (h : Sound (.climb entered done, top :: stack, s))
    (ho : top.acceptDone done = .ok (.list element 0 items)) :
    closeList element items = .ok (.list element items.reverse) :=
  closeList_eq (h.attached ho).1.1

end Climb

theorem Sound.move {p q : Point} (h : Sound p) (hmove : Move p q) : Sound q := by
  cases hmove with
  | scalar hlist hcompound hscalar =>
    cases h with
    | enter hstack => exact .complete (kind_of_scalar hscalar ▸ hstack)
  | openList hroom hheading =>
    cases h with
    | enter hstack => exact .ready ⟨List.forall_mem_nil _, of_listHeading hheading⟩ hstack
  | openCompound hroom =>
    cases h with
    | enter hstack => exact .ready ⟨[], Compound.holds_empty⟩ hstack
  | @element entered done top stack s element left items ho =>
    obtain ⟨⟨hitems, hend⟩, hstack⟩ := h.attached ho
    have helement : element ≠ .endMark := fun h => absurd (hend h) (Nat.succ_ne_zero left)
    exact .enter (.inside helement ⟨rfl, hitems⟩ hstack)
  | closeList ho hclose =>
    obtain rfl := Except.ok.inj ((h.closes ho).symm.trans hclose)
    exact .complete (h.attached ho).2
  | child ho hheading =>
    obtain ⟨hbuilt, hstack⟩ := h.attached ho
    exact .enter (.inside (kind_of_childHeading hheading) ⟨rfl, hbuilt⟩ hstack)
  | closeCompound ho hheading => exact .complete (h.attached ho).2

/-- A payload is entered soundly. -/
theorem sound_payload {kind : TagKind} (hkind : kind ≠ .endMark) (s : Source) :
    Sound (.enter kind, [], s) :=
  .enter (.root hkind)

/-! ### Courses and readings -/

theorem Move.behind {p q : Point} (h : Move p q) : q.2.2.Behind p.2.2 := by
  cases h with
  | scalar hlist hcompound h => exact (orderly_scalar hlist hcompound).behind h
  | openList hroom h => exact orderly_listHeading.behind h
  | child ho h => exact orderly_childHeading.behind h
  | closeCompound ho h => exact orderly_childHeading.behind h
  | openCompound | element | closeList => exact .refl _

/-- A sound end is no fault of the loop's own. -/
theorem Sound.endsOrderly {p : Point} {result : Except Fault Tag × Source} (h : Sound p)
    (hend : End p result) : EndsOrderly Refusal p.2.2 result := by
  have hpart {α : Type} {r : Reader α} (hr : r.Orderly Rejected) {s s' : Source} {fault : Fault}
      (hfault : r s = (.error fault, s')) :
      EndsOrderly Refusal s ((.error fault, s') : Except Fault Tag × Source) :=
    .error (hr.behind hfault) ((hr.stopped hfault).mono fun _ => .rejected)
  cases hend with
  | finished => exact .ok _ (.refl _)
  -- where nothing is open a sound climb carries a tag
  | idle => cases h
  | scalar hlist hcompound hfault => exact hpart (orderly_scalar hlist hcompound) hfault
  | full hkind hfull =>
    exact .error (.refl _) (.refused (.rejected (rejected_nbt (by simp) (by simp))))
  | listHeading hroom hfault => exact hpart orderly_listHeading hfault
  | attach hfault =>
    obtain ⟨t, built, name, breach, rfl, rfl, rfl, hclash⟩ := h.clash hfault
    exact .error (.refl _) (.refused (.clash hclash))
  | closeList ho hclose => exact absurd ((h.closes ho).symm.trans hclose) nofun
  | childHeading ho hfault => exact hpart orderly_childHeading hfault

theorem Course.endsOrderly {p : Point} {points : List Point} {result : Except Fault Tag × Source}
    (h : Course p points result) (hp : Sound p) : EndsOrderly Refusal p.2.2 result :=
  h.induct Sound (fun p _ result => EndsOrderly Refusal p.2.2 result) Sound.move Sound.endsOrderly
    (fun _ hmove hrest => hrest.of_behind hmove.behind) hp

theorem Reading.endsOrderly {header : Header} {s : Source} {points : List Point}
    {result : Except Fault Root × Source} (h : Reading header s points result) :
    EndsOrderly Refusal s result := by
  cases h with
  | refused hheading =>
    have hheading' := (orderly_heading header).mono fun _ => Refusal.rejected
    exact .error (hheading'.behind hheading) (hheading'.stopped hheading)
  | endMark hheading => exact .ok _ ((orderly_heading header).behind hheading)
  | @tree kind name s₁ s' points outcome hheading hkind hcourse =>
    have htree := (hcourse.endsOrderly (sound_payload hkind s₁)).map (Root.mk name)
    exact htree.of_behind ((orderly_heading header).behind hheading)

theorem orderly_root (header : Header) : (root header).Orderly Refusal := by
  intro s
  obtain ⟨_, hreading⟩ := exists_reading header s
  exact hreading.endsOrderly

end Read

end MinecraftWire.Nbt
