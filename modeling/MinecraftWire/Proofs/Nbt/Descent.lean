import MinecraftWire.Proofs.Nbt.Parts
import Std.Data.HashMap.Lemmas

/-! The loop over open lists and compounds is the recursive descent of the grammar. Under any stack
that leaves `room` containers, entering a tag comes down to climbing with what the grammar parses
with that room; by induction on the room, inside it on the elements to come or on the bytes of the
compound. -/

namespace MinecraftWire.Nbt

/-! ### Containers under construction -/

theorem pushAll_eq {element : TagKind} (helement : element ≠ .endMark) (items : List Tag)
    (hitems : ∀ t ∈ items, t.kind = element) (earlier : Array Tag) :
    TagList.pushAll items ⟨element, earlier⟩ = .ok ⟨element, earlier ++ items.toArray⟩ := by
  induction items generalizing earlier with
  | nil => simp [TagList.pushAll, pure, Except.pure]
  | cons t items ih =>
    have ht : t.kind = element := hitems t List.mem_cons_self
    have hpush : TagList.push t ⟨element, earlier⟩ = .ok ⟨element, earlier.push t⟩ := by
      rw [TagList.push, if_neg (by rw [ht]; exact helement), if_neg helement, if_pos ht.symm]
    show (TagList.push t ⟨element, earlier⟩ >>= fun l => TagList.pushAll items l) = _
    rw [hpush]
    show TagList.pushAll items ⟨element, earlier.push t⟩ = _
    rw [ih fun u hu => hitems u (List.mem_cons_of_mem _ hu)]
    simp

/-- A list closes when all its elements are of its kind; one of end marks has none. -/
theorem closeList_eq {element : TagKind} {items : List Tag}
    (hitems : ∀ t ∈ items, t.kind = element ∧ element ≠ .endMark) :
    Read.closeList element items = .ok (.list element items.reverse) := by
  rcases items with _ | ⟨t, items⟩
  · rfl
  · have helement := (hitems t List.mem_cons_self).2
    have hpush := pushAll_eq helement (t :: items).reverse
      (fun u hu => (hitems u (List.mem_reverse.mp hu)).1) #[]
    rw [Read.closeList, TagList.ofKind, hpush]
    simp [Except.map, TagList.toTag]

namespace Compound

/-- The compound holds the given entries in order, and its index knows their names. -/
def Holds (c : Compound) (entries : List (String × Tag)) : Prop :=
  c.entries.toList = entries ∧ ∀ name, c.index.contains name = (entries.lookup name).isSome

theorem holds_empty : empty.Holds [] :=
  ⟨rfl, fun name => by simp [empty]⟩

theorem Holds.insert {c : Compound} {entries : List (String × Tag)} (h : c.Holds entries)
    {name : String} {t : Tag} (hname : ¬ (name.isEmpty ∨ (entries.lookup name).isSome))
    (ht : t.kind ≠ .endMark) :
    ∃ c', c.insert name t = .ok c' ∧ c'.Holds (entries ++ [(name, t)]) := by
  obtain ⟨hentries, hindex⟩ := h
  rw [not_or] at hname
  have hinsert : c.insert name t =
      .ok ⟨c.entries.push (name, t), c.index.insert name c.entries.size⟩ := by
    rw [Compound.insert, if_neg hname.1, if_neg ht, if_neg (by rw [hindex]; exact hname.2)]
  refine ⟨_, hinsert, by simp [hentries], fun other => ?_⟩
  rw [Std.HashMap.contains_insert, hindex, List.lookup_append, Option.isSome_or, Bool.or_comm]
  by_cases heq : name = other
  · simp [heq]
  · have hbeq : (other == name) = false := by simpa using Ne.symm heq
    simp [heq, List.lookup_cons, hbeq]

theorem Holds.insert_error {c : Compound} {entries : List (String × Tag)} (h : c.Holds entries)
    {name : String} {t : Tag} (hname : name.isEmpty ∨ (entries.lookup name).isSome) :
    ∃ fault, c.insert name t = .error fault ∧ fault.kind = .structural := by
  unfold Compound.insert
  split
  · exact ⟨_, rfl, rfl⟩
  · split
    · exact ⟨_, rfl, rfl⟩
    · rename_i hempty _
      have hlookup := hname.resolve_left hempty
      rw [if_pos (by rw [h.2]; exact hlookup)]
      exact ⟨_, rfl, rfl⟩

end Compound

namespace Read

variable {α : Type} {entered : TagKind} {focus focus' : Focus} {stack stack' : List Open}
  {s s' : Source}

/-! ### Steps of the loop -/

theorem run_of_running (h : step focus stack s = (.ok (.running focus' stack'), s')) :
    run focus stack s = run focus' stack' s' := by
  rw [run]
  split <;> rename_i h' <;> rw [h] at h' <;> cases h'
  rfl

theorem run_of_fault {fault : Fault} (h : step focus stack s = (.error fault, s')) :
    run focus stack s = (.error fault, s') := by
  rw [run]
  split <;> rename_i h' <;> rw [h] at h' <;> cases h'
  rfl

theorem run_of_finished {t : Tag} (h : step focus stack s = (.ok (.finished t), s')) :
    run focus stack s = (.ok t, s') := by
  rw [run]
  split <;> rename_i h' <;> rw [h] at h' <;> cases h'
  rfl

theorem run_congr (h : step focus stack s = step focus' stack' s') :
    run focus stack s = run focus' stack' s' := by
  rcases hstep : step focus' stack' s' with ⟨fault | ⟨next, rest⟩ | t, left⟩ <;> rw [hstep] at h
  · rw [run_of_fault h, run_of_fault hstep]
  · rw [run_of_running h, run_of_running hstep]
  · rw [run_of_finished h, run_of_finished hstep]

/-- Go on behind the first step. -/
theorem follows_run {next : α → Focus} {rest : α → List Open} {parsed : Except Fault.Kind (α × Bytes)}
    (h : Follows (fun a s' => (.ok (.running (next a) (rest a)), s')) parsed (step focus stack s)) :
    Follows (fun a => run (next a) (rest a)) parsed (run focus stack s) := by
  generalize hstep : step focus stack s = result at h
  cases h with
  | value a s' hs' =>
    rw [run_of_running hstep]
    exact .value a s' hs'
  | fault fault s' =>
    rw [run_of_fault hstep]
    exact .fault fault s'

/-- A complete tag is attached to the container on top before anything else happens. -/
theorem run_climb_some {t : Tag} {top o : Open} (h : top.accept t = .ok o) :
    run (.climb entered (some t)) (top :: stack) s = run (.climb entered none) (o :: stack) s := by
  apply run_congr
  show (Reader.lift (top.accept t) >>= resume entered stack) s =
    (Reader.lift (.ok o) >>= resume entered stack) s
  rw [h]

theorem run_climb_some_fault {t : Tag} {top : Open} {fault : Fault}
    (h : top.accept t = .error fault) :
    run (.climb entered (some t)) (top :: stack) s = (.error fault, s) := by
  apply run_of_fault
  show (Reader.lift (top.accept t) >>= resume entered stack) s = _
  rw [h]
  rfl

/-- A child whose name is new becomes the last entry of its compound. -/
theorem run_attach {built : Compound} {entries : List (String × Tag)} (hbuilt : built.Holds entries)
    {name : String} {t : Tag} (hname : ¬ (name.isEmpty ∨ (entries.lookup name).isSome))
    (ht : t.kind ≠ .endMark) :
    ∃ built' : Compound, built'.Holds (entries ++ [(name, t)]) ∧
      run (.climb entered (some t)) (.compound built (some name) :: stack) s =
        run (.climb entered none) (.compound built' none :: stack) s := by
  obtain ⟨built', hinsert, hbuilt'⟩ := hbuilt.insert hname ht
  have haccept : (Open.compound built (some name)).accept t = .ok (.compound built' none) := by
    rw [Open.accept, hinsert]
    rfl
  exact ⟨built', hbuilt', run_climb_some haccept⟩

/-- A child without a name, or with the name of an earlier one, ends the run once it is complete. -/
theorem run_attach_fault {built : Compound} {entries : List (String × Tag)}
    (hbuilt : built.Holds entries) {name : String} (t : Tag)
    (hname : name.isEmpty ∨ (entries.lookup name).isSome) :
    ∃ fault : Fault, fault.kind = .structural ∧
      run (.climb entered (some t)) (.compound built (some name) :: stack) s =
        (.error fault, s) := by
  obtain ⟨fault, hinsert, hkind⟩ := hbuilt.insert_error (t := t) hname
  have haccept : (Open.compound built (some name)).accept t = .error fault := by
    rw [Open.accept, hinsert]
    rfl
  exact ⟨fault, hkind, run_climb_some_fault haccept⟩

theorem run_climb_nil (entered : TagKind) (t : Tag) :
    run (.climb entered (some t)) [] s = (.ok t, s) :=
  run_of_finished rfl

/-- The kind entered last is handed on to a climb with a complete tag, or to nothing. -/
theorem resume_entered (entered entered' : TagKind) (stack : List Open) (o : Open) (s : Source) :
    resume entered stack o s = resume entered' stack o s ∨
    ∃ t s', resume entered stack o s = (.ok (.running (.climb entered (some t)) stack), s') ∧
      resume entered' stack o s = (.ok (.running (.climb entered' (some t)) stack), s') := by
  rcases o with ⟨element, _ | left, items⟩ | ⟨built, name⟩
  · rw [resume, resume]
    rcases closeList element items with fault | t
    · exact .inl rfl
    · exact .inr ⟨t, s, rfl, rfl⟩
  · exact .inl rfl
  · rw [resume, resume]
    rcases h : childHeading s with ⟨fault | _ | child, s'⟩
    · exact .inl (by rw [Reader.bind_of_error h, Reader.bind_of_error h])
    · exact .inr ⟨built.toTag, s', Reader.bind_of_ok h, Reader.bind_of_ok h⟩
    · exact .inl (by rw [Reader.bind_of_ok h, Reader.bind_of_ok h])

/-- Only a climb without a tag would name the kind entered last; by induction on what is open. -/
theorem run_climb_entered (entered entered' : TagKind) (t : Tag) (stack : List Open) (s : Source) :
    run (.climb entered (some t)) stack s = run (.climb entered' (some t)) stack s := by
  induction stack generalizing t s with
  | nil => rw [run_climb_nil, run_climb_nil]
  | cons top stack ih =>
    rcases haccept : top.accept t with fault | o
    · rw [run_climb_some_fault haccept, run_climb_some_fault haccept]
    have hstep (entered : TagKind) :
        step (.climb entered (some t)) (top :: stack) s = resume entered stack o s := by
      show (Reader.lift (top.accept t) >>= resume entered stack) s = _
      rw [haccept]
      rfl
    rcases resume_entered entered entered' stack o s with h | ⟨t', s', h, h'⟩
    · exact run_congr ((hstep entered).trans (h.trans (hstep entered').symm))
    · rw [run_of_running ((hstep entered).trans h), run_of_running ((hstep entered').trans h')]
      exact ih t' s'

/-! ### Entering a tag -/

/-- Whatever is open, entering a tag with room for `room` more containers comes down to climbing
with the tag that the grammar parses. -/
def Enters (room : Nat) : Prop :=
  ∀ (kind : TagKind) (stack : List Open) (s : Source), stack.length + room = maxDepth →
    s.failing = false → Follows (fun t => run (.climb kind (some t)) stack)
      ((Grammar.payload room kind).parse s.pending) (run (.enter kind) stack s)

theorem follows_scalar (room : Nat) {kind : TagKind} (hlist : kind ≠ .list)
    (hcompound : kind ≠ .compound) (hs : s.failing = false) :
    Follows (fun t => run (.climb kind (some t)) stack)
      ((Grammar.payload room kind).parse s.pending) (run (.enter kind) stack s) := by
  apply follows_run
  show Follows _ _ (enter stack kind s)
  rw [enter_scalar stack hlist hcompound]
  exact (realizes_scalar room hlist hcompound s hs).bind_reader _

/-- Where a compound goes on behind the heading of a child, or behind its end. -/
def behindHeading (entered : TagKind) (built : Compound) (stack : List Open) :
    Option (TagKind × String) → Focus × List Open
  | none => (.climb entered (some built.toTag), stack)
  | some (kind, name) => (.enter kind, .compound built (some name) :: stack)

theorem follows_heading (entered : TagKind) (built : Compound) (name : Option String)
    (stack : List Open) (hs : s.failing = false) :
    Follows (fun child =>
        run (behindHeading entered built stack child).1 (behindHeading entered built stack child).2)
      (Grammar.childHeading.parse s.pending)
      (run (.climb entered none) (.compound built name :: stack) s) := by
  apply follows_run
  have hresume : resume entered stack (.compound built name) = childHeading >>= fun child =>
      pure (.running (behindHeading entered built stack child).1
        (behindHeading entered built stack child).2) := by
    show (childHeading >>= _) = _
    congr 1
    funext child
    rcases child with _ | ⟨kind, child⟩ <;> rfl
  show Follows _ _ (resume entered stack (.compound built name) s)
  rw [hresume]
  exact (realizes_childHeading s hs).bind_reader _

section Container

variable {room : Nat} (ih : Enters room) (hstack : stack.length + (room + 1) = maxDepth)

include ih hstack

/-- The elements still to come are those the grammar parses. -/
theorem follows_elements {element : TagKind} {n : Nat} (items : List Tag)
    (hitems : ∀ t ∈ items, t.kind = element ∧ element ≠ .endMark)
    (helement : element = .endMark → n = 0) (hs : s.failing = false) :
    Follows (fun ts => run (.climb .list (some (.list element (items.reverse ++ ts)))) stack)
      ((Parser.times n (Grammar.payload room element)).parse s.pending)
      (run (.climb entered none) (.list element n items :: stack) s) := by
  induction n generalizing entered items s with
  | zero =>
    have hstep : step (.climb entered none) (.list element 0 items :: stack) s =
        (.ok (.running (.climb entered (some (.list element (items.reverse ++ [])))) stack), s) := by
      show (Reader.lift (closeList element items) >>= _) s = _
      rw [closeList_eq hitems, List.append_nil]
      rfl
    rw [run_of_running hstep, run_climb_entered entered .list]
    exact .value [] s hs
  | succ n ihn =>
    have hstep : step (.climb entered none) (.list element (n + 1) items :: stack) s =
        (.ok (.running (.enter element) (.list element n items :: stack)), s) := rfl
    have hchild := ih element (.list element n items :: stack) s (by rw [List.length_cons]; omega) hs
    rw [run_of_running hstep]
    -- the element is attached, and the list goes on with one element less to come
    refine hchild.bind fun t s' hs' hparse => ?_
    rw [run_climb_some (o := .list element n (t :: items)) rfl]
    have hend : element ≠ .endMark := fun h => absurd (helement h) (Nat.succ_ne_zero n)
    refine (ihn (t :: items) ?_ (fun h => absurd h hend) hs').bind fun ts s'' hs'' _ => ?_
    · intro u hu
      rcases List.mem_cons.mp hu with rfl | hu
      · exact ⟨Grammar.kind_of_payload hparse, hend⟩
      · exact hitems u hu
    · rw [List.reverse_cons, List.append_assoc, List.singleton_append]
      exact .value (t :: ts) s'' hs''

/-- Behind the heading of a child the payload of the child is entered, under its compound. -/
theorem follows_child (entered : TagKind) (built : Compound) (name : Option String)
    (hs : s.failing = false) {kind : TagKind} {child : String} {left : Bytes}
    (hparse : Grammar.childHeading.parse s.pending = .ok (some (kind, child), left)) :
    Follows (fun t => run (.climb kind (some t)) (.compound built (some child) :: stack))
      ((Grammar.payload room kind).parse left)
      (run (.climb entered none) (.compound built name :: stack) s) := by
  have hheading := follows_heading entered built name stack hs
  rw [hparse] at hheading
  obtain ⟨s', hs', rfl, hrun⟩ := hheading.exists_of_ok
  rw [hrun]
  exact ih kind (.compound built (some child) :: stack) s' (by rw [List.length_cons]; omega) hs'

/-- The children still to come are those the grammar parses. -/
theorem follows_children {entries : List (String × Tag)} {built : Compound}
    (hbuilt : built.Holds entries) (entered : TagKind) (name : Option String)
    (hs : s.failing = false) {bytes : Bytes} (hbytes : s.pending = bytes) :
    Follows (fun all => run (.climb .compound (some (.compound all))) stack)
      (Grammar.children (Grammar.payload room) entries bytes)
      (run (.climb entered none) (.compound built name :: stack) s) := by
  fun_induction Grammar.children (Grammar.payload room) entries bytes
    generalizing entered built name s with subst hbytes
  | case1 entries bytes fault hparse =>
    have hheading := follows_heading entered built name stack hs
    rw [hparse] at hheading
    exact hheading.of_error
  | case2 entries bytes left hparse =>
    have hheading := follows_heading entered built name stack hs
    rw [hparse] at hheading
    obtain ⟨s', hs', rfl, hrun⟩ := hheading.exists_of_ok
    rw [hrun, behindHeading, Compound.toTag, hbuilt.1, run_climb_entered entered .compound]
    exact .value entries s' hs'
  | case3 entries bytes kind child left hparse fault hchild =>
    have hpayload := follows_child ih hstack entered built name hs hparse
    rw [hchild] at hpayload
    exact hpayload.of_error
  | case4 entries bytes kind child left hparse t left' hchild hname =>
    have hpayload := follows_child ih hstack entered built name hs hparse
    rw [hchild] at hpayload
    obtain ⟨s', -, -, hrun⟩ := hpayload.exists_of_ok
    obtain ⟨fault, hkind, hattach⟩ := run_attach_fault hbuilt t hname
    rw [hrun, hattach, ← hkind]
    exact .fault fault s'
  | case5 entries bytes kind child left hparse t left' hchild hname ihc =>
    have hpayload := follows_child ih hstack entered built name hs hparse
    rw [hchild] at hpayload
    obtain ⟨s', hs', hrest, hrun⟩ := hpayload.exists_of_ok
    have hkind : t.kind ≠ .endMark := by
      rw [Grammar.kind_of_payload hchild]
      exact Grammar.kind_of_childHeading hparse
    obtain ⟨built', hbuilt', hattach⟩ := run_attach hbuilt hname hkind
    rw [hrun, hattach]
    exact ihc hbuilt' kind none hs' hrest

theorem follows_list (hs : s.failing = false) :
    Follows (fun t => run (.climb .list (some t)) stack)
      ((Grammar.payload (room + 1) .list).parse s.pending)
      (run (.enter .list) stack s) := by
  have henter : enter stack .list = listHeading >>= fun heading =>
      pure (.running (.climb .list none) (.list heading.1 heading.2 [] :: stack)) := by
    show (Reader.lift (checkDepth stack) >>= _) = _
    rw [checkDepth_eq_ok (by omega)]
    rfl
  have hheading : Follows
      (fun heading => run (.climb .list none) (.list heading.1 heading.2 [] :: stack))
      (Grammar.listHeading.parse s.pending) (run (.enter .list) stack s) := by
    apply follows_run
    show Follows _ _ (enter stack .list s)
    rw [henter]
    exact (realizes_listHeading s hs).bind_reader _
  refine hheading.bind fun ⟨element, n⟩ s' hs' hparse => ?_
  refine (follows_elements ih hstack [] (by simp) (Grammar.of_listHeading hparse) hs').bind
    fun ts s'' hs'' _ => ?_
  exact .value (Tag.list element ts) s'' hs''

theorem follows_compound (hs : s.failing = false) :
    Follows (fun t => run (.climb .compound (some t)) stack)
      ((Grammar.payload (room + 1) .compound).parse s.pending) (run (.enter .compound) stack s) := by
  have hstep : step (.enter .compound) stack s =
      (.ok (.running (.climb .compound none) (.compound .empty none :: stack)), s) := by
    show (Reader.lift (checkDepth stack) >>= _) s = _
    rw [checkDepth_eq_ok (by omega)]
    rfl
  rw [run_of_running hstep]
  have hchildren := follows_children ih hstack Compound.holds_empty .compound none hs rfl
  refine Follows.bind (p := Grammar.compound (Grammar.payload room)) hchildren
    fun entries s' hs' _ => ?_
  exact .value (Tag.compound entries) s' hs'

end Container

/-- With no room left a container is refused before anything is read of it. -/
theorem run_enter_full {kind : TagKind} (hkind : kind = .list ∨ kind = .compound)
    (hstack : stack.length + 0 = maxDepth) :
    run (.enter kind) stack s = (.error (.format (.nbt .nesting)), s) := by
  apply run_of_fault
  rcases hkind with rfl | rfl
  all_goals
    show (Reader.lift (checkDepth stack) >>= _) s = _
    rw [checkDepth_eq_error (by omega)]
    rfl

theorem enters (room : Nat) : Enters room := by
  induction room with
  | zero =>
    intro kind stack s hstack hs
    by_cases hkind : kind = .list ∨ kind = .compound
    · have hfull := run_enter_full (s := s) hkind hstack
      have hparse : (Grammar.payload 0 kind).parse s.pending = .error .format := by
        rcases hkind with rfl | rfl <;> rfl
      rw [hfull, hparse]
      exact .fault (.format (.nbt .nesting)) s
    · rw [not_or] at hkind
      exact follows_scalar 0 hkind.1 hkind.2 hs
  | succ room ih =>
    intro kind stack s hstack hs
    by_cases hlist : kind = .list
    · subst hlist
      exact follows_list ih hstack hs
    by_cases hcompound : kind = .compound
    · subst hcompound
      exact follows_compound ih hstack hs
    exact follows_scalar (room + 1) hlist hcompound hs

/-! ### Payloads and roots -/

theorem realizes_payload (kind : TagKind) :
    Realizes (payload kind) (Grammar.payload maxDepth kind) := by
  intro s hs
  have hfinish : (fun t => run (.climb kind (some t)) []) = fun t s' => (.ok t, s') := by
    funext t s'
    exact run_climb_nil kind t
  rw [← hfinish]
  exact enters maxDepth kind [] s (Nat.zero_add _) hs

theorem realizes_root (header : Header) : Realizes (root header) (Grammar.root header) := by
  refine realizes_kind.bind fun kind => ?_
  by_cases hkind : kind = .endMark
  · rw [if_pos hkind, if_pos hkind]
    exact realizes_pure _
  · rw [if_neg hkind, if_neg hkind]
    cases header with
    | named =>
      intro s hs
      rw [Grammar.rootName, Parser.parse_bind_assoc]
      exact realizes_text.bind (fun name => (realizes_payload kind).map
        (Root.mk (if name.isEmpty then none else some name))) s hs
    | unnamed => exact (realizes_payload kind).map (Root.mk none)

/-- From every channel, in whatever pieces it hands out its bytes, the reader makes of them what the
grammar does: the same tree with the same bytes left, or a fault of the same kind. -/
theorem verdict_eq_grammar (bytes : Bytes) (grant : Nat → Nat) (calls : Nat) :
    (∀ header, (root header).verdict ⟨bytes, false, grant, calls⟩ =
      (Grammar.root header).parse bytes) ∧
    ∀ kind, (payload kind).verdict ⟨bytes, false, grant, calls⟩ =
      (Grammar.payload maxDepth kind).parse bytes := by
  constructor
  · intro header
    exact (realizes_root header).verdict rfl
  · intro kind
    exact (realizes_payload kind).verdict rfl

end Read

end MinecraftWire.Nbt
