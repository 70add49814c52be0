import MinecraftWire.Proofs.Nbt.Refusal

/-! The points that the reading loop passes. A step from a point is one of seven moves or one of
eight ends; each says what was read and what was done with it, so that what holds at every point is
proved move by move. A course lists the points of a run, and a reading those of a root. -/

namespace MinecraftWire.Nbt

open Reader

namespace Read

/-! ### Moves and ends -/

/-- Where the loop is: what it does next, what is open, and the channel. -/
abbrev Point := Focus × List Open × Source

/-- The ways from one point to the next. -/
inductive Move : Point → Point → Prop where
  | scalar {kind : TagKind} {stack : List Open} {s s' : Source} {t : Tag} (hlist : kind ≠ .list)
      (hcompound : kind ≠ .compound) (h : scalar kind s = (.ok t, s')) :
      Move (.enter kind, stack, s) (.climb kind (some t), stack, s')
  | openList {stack : List Open} {s s' : Source} {element : TagKind} {n : Nat}
      (hroom : stack.length < maxDepth) (h : listHeading s = (.ok (element, n), s')) :
      Move (.enter .list, stack, s) (.climb .list none, .list element n [] :: stack, s')
  | openCompound {stack : List Open} {s : Source} (hroom : stack.length < maxDepth) :
      Move (.enter .compound, stack, s) (.climb .compound none, .compound .empty none :: stack, s)
  | element {entered : TagKind} {done : Option Tag} {top : Open} {stack : List Open} {s : Source}
      {element : TagKind} {left : Nat} {items : List Tag}
      (h : top.acceptDone done = .ok (.list element (left + 1) items)) :
      Move (.climb entered done, top :: stack, s)
        (.enter element, .list element left items :: stack, s)
  | closeList {entered : TagKind} {done : Option Tag} {top : Open} {stack : List Open} {s : Source}
      {element : TagKind} {items : List Tag} {t : Tag}
      (h : top.acceptDone done = .ok (.list element 0 items))
      (hclose : closeList element items = .ok t) :
      Move (.climb entered done, top :: stack, s) (.climb entered (some t), stack, s)
  | child {entered : TagKind} {done : Option Tag} {top : Open} {stack : List Open} {s s' : Source}
      {built : Compound} {last : Option String} {kind : TagKind} {name : String}
      (h : top.acceptDone done = .ok (.compound built last))
      (hheading : childHeading s = (.ok (some (kind, name)), s')) :
      Move (.climb entered done, top :: stack, s)
        (.enter kind, .compound built (some name) :: stack, s')
  | closeCompound {entered : TagKind} {done : Option Tag} {top : Open} {stack : List Open}
      {s s' : Source} {built : Compound} {last : Option String}
      (h : top.acceptDone done = .ok (.compound built last))
      (hheading : childHeading s = (.ok none, s')) :
      Move (.climb entered done, top :: stack, s) (.climb entered (some built.toTag), stack, s')

/-- The ways in which the loop ends. -/
inductive End : Point → Except Fault Tag × Source → Prop where
  | finished {entered : TagKind} {t : Tag} {s : Source} :
      End (.climb entered (some t), [], s) (.ok t, s)
  | idle {entered : TagKind} {s : Source} :
      End (.climb entered none, [], s) (.error (.format (.nbt (.notScalar entered))), s)
  | scalar {kind : TagKind} {stack : List Open} {s s' : Source} {fault : Fault}
      (hlist : kind ≠ .list) (hcompound : kind ≠ .compound)
      (h : scalar kind s = (.error fault, s')) : End (.enter kind, stack, s) (.error fault, s')
  | full {kind : TagKind} {stack : List Open} {s : Source} (hkind : kind = .list ∨ kind = .compound)
      (h : ¬ stack.length < maxDepth) :
      End (.enter kind, stack, s) (.error (.format (.nbt .nesting)), s)
  | listHeading {stack : List Open} {s s' : Source} {fault : Fault}
      (hroom : stack.length < maxDepth) (h : listHeading s = (.error fault, s')) :
      End (.enter .list, stack, s) (.error fault, s')
  | attach {entered : TagKind} {done : Option Tag} {top : Open} {stack : List Open} {s : Source}
      {fault : Fault} (h : top.acceptDone done = .error fault) :
      End (.climb entered done, top :: stack, s) (.error fault, s)
  | closeList {entered : TagKind} {done : Option Tag} {top : Open} {stack : List Open} {s : Source}
      {element : TagKind} {items : List Tag} {fault : Fault}
      (h : top.acceptDone done = .ok (.list element 0 items))
      (hclose : closeList element items = .error fault) :
      End (.climb entered done, top :: stack, s) (.error fault, s)
  | childHeading {entered : TagKind} {done : Option Tag} {top : Open} {stack : List Open}
      {s s' : Source} {built : Compound} {last : Option String} {fault : Fault}
      (h : top.acceptDone done = .ok (.compound built last))
      (hheading : childHeading s = (.error fault, s')) :
      End (.climb entered done, top :: stack, s) (.error fault, s')

/-- What a step from a point may come to. -/
def Steps (p : Point) : Except Fault Step × Source → Prop
  | (.ok (.running focus stack), s') => Move p (focus, stack, s')
  | (.ok (.finished t), s') => End p (.ok t, s')
  | (.error fault, s') => End p (.error fault, s')

variable {stack : List Open} {s : Source} {kind : TagKind} {done : Option Tag} {top : Open}

theorem steps_enter_list (stack : List Open) (s : Source) :
    Steps (.enter .list, stack, s) (enter stack .list s) := by
  change Steps _ ((lift (checkDepth stack) >>= fun _ => _) s)
  by_cases hroom : stack.length < maxDepth
  · rw [checkDepth_eq_ok hroom]
    change Steps _ ((Read.listHeading >>= _) s)
    rcases h : Read.listHeading s with ⟨fault | ⟨element, n⟩, s'⟩
    · rw [bind_of_error h]
      exact .listHeading hroom h
    · rw [bind_of_ok h]
      exact .openList hroom h
  · rw [checkDepth_eq_error hroom]
    exact .full (.inl rfl) hroom

theorem steps_enter_compound (stack : List Open) (s : Source) :
    Steps (.enter .compound, stack, s) (enter stack .compound s) := by
  change Steps _ ((lift (checkDepth stack) >>= fun _ => _) s)
  by_cases hroom : stack.length < maxDepth
  · rw [checkDepth_eq_ok hroom]
    exact .openCompound hroom
  · rw [checkDepth_eq_error hroom]
    exact .full (.inr rfl) hroom

theorem steps_enter (kind : TagKind) (stack : List Open) (s : Source) :
    Steps (.enter kind, stack, s) (enter stack kind s) := by
  by_cases hlist : kind = .list
  · exact hlist ▸ steps_enter_list stack s
  by_cases hcompound : kind = .compound
  · exact hcompound ▸ steps_enter_compound stack s
  rw [enter_scalar stack hlist hcompound]
  rcases h : Read.scalar kind s with ⟨fault | t, s'⟩
  · rw [bind_of_error h]
    exact .scalar hlist hcompound h
  · rw [bind_of_ok h]
    exact .scalar hlist hcompound h

/-- On a container that is given its child, or had none to be given. -/
theorem steps_resume {o : Open} (h : top.acceptDone done = .ok o) (entered : TagKind)
    (stack : List Open) (s : Source) :
    Steps (.climb entered done, top :: stack, s) (resume entered stack o s) := by
  rcases o with ⟨element, _ | left, items⟩ | ⟨built, last⟩
  · change Steps _ ((lift (Read.closeList element items) >>= _) s)
    rcases hclose : Read.closeList element items with fault | t
    · exact .closeList h hclose
    · exact .closeList h hclose
  · exact .element h
  · change Steps _ ((Read.childHeading >>= _) s)
    rcases hheading : Read.childHeading s with ⟨fault | _ | ⟨kind, name⟩, s'⟩
    · rw [bind_of_error hheading]
      exact .childHeading h hheading
    · rw [bind_of_ok hheading]
      exact .closeCompound h hheading
    · rw [bind_of_ok hheading]
      exact .child h hheading

theorem steps_climb (entered : TagKind) (done : Option Tag) (stack : List Open) (s : Source) :
    Steps (.climb entered done, stack, s) (step (.climb entered done) stack s) := by
  rcases stack with _ | ⟨top, stack⟩
  · cases done with
    | none => exact .idle
    | some t => exact .finished
  · rw [step_climb]
    rcases h : top.acceptDone done with fault | o
    · exact .attach h
    · exact steps_resume h entered stack s

/-- A step is a move or an end. -/
theorem steps (p : Point) : Steps p (step p.1 p.2.1 p.2.2) := by
  obtain ⟨focus, stack, s⟩ := p
  cases focus with
  | enter kind => exact steps_enter kind stack s
  | climb entered done => exact steps_climb entered done stack s

theorem move_of_next {p q : Point} (h : Next p q) : Move p q := by
  have hsteps := steps p
  rw [h] at hsteps
  exact hsteps

/-! ### Courses -/

/-- The points that the loop passes from a point on, and what comes of it. -/
inductive Course : Point → List Point → Except Fault Tag × Source → Prop where
  | finished {p : Point} {t : Tag} {s' : Source}
      (h : step p.1 p.2.1 p.2.2 = (.ok (.finished t), s')) : Course p [p] (.ok t, s')
  | fault {p : Point} {fault : Fault} {s' : Source}
      (h : step p.1 p.2.1 p.2.2 = (.error fault, s')) : Course p [p] (.error fault, s')
  | next {p q : Point} {points : List Point} {result : Except Fault Tag × Source} (h : Next p q)
      (hrest : Course q points result) : Course p (p :: points) result

theorem exists_course (focus : Focus) (stack : List Open) (s : Source) :
    ∃ points, Course (focus, stack, s) points (run focus stack s) := by
  fun_induction run focus stack s with
  | case1 focus stack s fault s' h => exact ⟨_, .fault h⟩
  | case2 focus stack s t s' h => exact ⟨_, .finished h⟩
  | case3 focus stack s focus' stack' s' h ih =>
    obtain ⟨points, hrest⟩ := ih
    have hnext : Next (focus, stack, s) (focus', stack', s') := h
    exact ⟨_, .next hnext hrest⟩

/-- By induction along a course, with an invariant that every move preserves: what the ends give,
and every move carries back, holds of the whole course. -/
theorem Course.induct (Invariant : Point → Prop)
    (Along : Point → List Point → Except Fault Tag × Source → Prop)
    (hmove : ∀ {p q}, Invariant p → Move p q → Invariant q)
    (hend : ∀ {p result}, Invariant p → End p result → Along p [p] result)
    (hback : ∀ {p q points result}, Invariant p → Move p q → Along q points result →
      Along p (p :: points) result)
    {p : Point} {points : List Point} {result : Except Fault Tag × Source}
    (h : Course p points result) (hp : Invariant p) : Along p points result := by
  induction h with
  | @finished p t s' h =>
    have hsteps := steps p
    rw [h] at hsteps
    exact hend hp hsteps
  | @fault p fault s' h =>
    have hsteps := steps p
    rw [h] at hsteps
    exact hend hp hsteps
  | next h _ ih =>
    have hnext := move_of_next h
    exact hback hp hnext (ih (hmove hp hnext))

/-! ### Readings -/

/-- What stands before the payload of a root; an end mark has no name. -/
def heading (header : Header) : Reader (TagKind × Option String) :=
  Read.kind >>= fun kind =>
    if kind = .endMark then pure (kind, none)
    else rootName header >>= fun name => pure (kind, name)

/-- What is read of a root: its heading, and behind it the points of its payload's course. -/
inductive Reading (header : Header) (s : Source) :
    List Point → Except Fault Root × Source → Prop where
  | refused {fault : Fault} {s' : Source} (h : heading header s = (.error fault, s')) :
      Reading header s [] (.error fault, s')
  | endMark {s' : Source} (h : heading header s = (.ok (.endMark, none), s')) :
      Reading header s [] (.ok ⟨none, .endMark⟩, s')
  | tree {kind : TagKind} {name : Option String} {s₁ s' : Source} {points : List Point}
      {outcome : Except Fault Tag} (h : heading header s = (.ok (kind, name), s₁))
      (hkind : kind ≠ .endMark) (hcourse : Course (.enter kind, [], s₁) points (outcome, s')) :
      Reading header s points (outcome.map (Root.mk name), s')

/-- Every root that is read, and every one that is refused, has its reading. -/
theorem exists_reading (header : Header) (s : Source) :
    ∃ points, Reading header s points (root header s) := by
  rw [root_eq]
  rcases hread : Read.kind s with ⟨fault | kind, s₁⟩
  · rw [bind_of_error hread]
    exact ⟨[], .refused (bind_of_error hread)⟩
  rw [bind_of_ok hread]
  by_cases hkind : kind = .endMark
  · subst hkind
    exact ⟨[], .endMark (bind_of_ok hread)⟩
  rw [if_neg hkind]
  have hheading : heading header s = (rootName header >>= fun name => pure (kind, name)) s₁ := by
    rw [heading, bind_of_ok hread, if_neg hkind]
  rcases hname : rootName header s₁ with ⟨fault | name, s₂⟩
  · rw [bind_of_error hname]
    exact ⟨[], .refused (hheading.trans (bind_of_error hname))⟩
  rw [bind_of_ok hname]
  obtain ⟨points, hcourse⟩ := exists_course (.enter kind) [] s₂
  have hok := hheading.trans (bind_of_ok hname)
  rcases hrun : run (.enter kind) [] s₂ with ⟨fault | t, s'⟩ <;> rw [hrun] at hcourse
  · rw [bind_of_error (show payload kind s₂ = _ from hrun)]
    exact ⟨points, .tree hok hkind hcourse⟩
  · rw [bind_of_ok (show payload kind s₂ = _ from hrun)]
    exact ⟨points, .tree hok hkind hcourse⟩

end Read

end MinecraftWire.Nbt
