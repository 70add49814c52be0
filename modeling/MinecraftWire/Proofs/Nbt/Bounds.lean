import MinecraftWire.Proofs.Nbt.Container
import MinecraftWire.Proofs.Nbt.Invariant

/-! The reading loop is bounded by what it reads. Every byte pays for three points of the loop, and
what is left over of it stays with the containers that are open; every tag is paid for by a byte of
its own, so the number of elements that a list declares makes neither the loop nor the tree any
longer. -/

namespace MinecraftWire.Nbt

open Reader

/-! ### The size of a tree -/

mutual

/-- The number of tags in a tree: containers and leaves, and the tree itself. -/
def Tag.size : Tag → Nat
  | .list _ items => 1 + Tag.sizeItems items
  | .compound entries => 1 + Tag.sizeEntries entries
  | _ => 1
termination_by structural t => t

def Tag.sizeItems : List Tag → Nat
  | [] => 0
  | t :: items => t.size + Tag.sizeItems items
termination_by structural ts => ts

def Tag.sizeEntries : List (String × Tag) → Nat
  | [] => 0
  | (_, t) :: entries => t.size + Tag.sizeEntries entries
termination_by structural es => es

end

namespace Tag

theorem sizeItems_eq_sum (items : List Tag) : sizeItems items = (items.map size).sum := by
  induction items with
  | nil => rfl
  | cons t items ih => rw [sizeItems, ih, List.map_cons, List.sum_cons]

theorem sizeItems_reverse (items : List Tag) : sizeItems items.reverse = sizeItems items := by
  rw [sizeItems_eq_sum, sizeItems_eq_sum, List.map_reverse, List.sum_reverse]

theorem sizeEntries_append_singleton (entries : List (String × Tag)) (name : String) (t : Tag) :
    sizeEntries (entries ++ [(name, t)]) = sizeEntries entries + t.size := by
  induction entries with
  | nil => exact Nat.add_comm _ _
  | cons e entries ih => rw [List.cons_append, sizeEntries, ih, sizeEntries, Nat.add_assoc]

theorem size_of_leaf {t : Tag} (hlist : t.kind ≠ .list) (hcompound : t.kind ≠ .compound) :
    t.size = 1 := by
  cases t with
  | list kind items => exact absurd rfl hlist
  | compound entries => exact absurd rfl hcompound
  | _ => rfl

end Tag

namespace Read

/-! ### Bytes that are read -/

theorem consumes_heading (header : Header) : (heading header).Consumes := by
  refine consumes_kind.bind fun kind => ?_
  split
  · exact shrinks_pure _
  · cases header with
    | named =>
      have hname : (rootName .named).Shrinks := consumes_text.shrinks.bind fun _ => shrinks_pure _
      exact hname.bind fun _ => shrinks_pure _
    | unnamed => exact (shrinks_pure _).bind fun _ => shrinks_pure _

/-! ### Containers that are given a child -/

/-- What an open container keeps of the bytes that were paid for it: the end of a list is not
marked by a byte. -/
def Open.kept : Open → Nat
  | .list .. => 1
  | .compound .. => 0

theorem Open.kept_list (element : TagKind) (left : Nat) (items : List Tag) :
    (Open.list element left items).kept = 1 := rfl

theorem Open.kept_compound (built : Compound) (name : Option String) :
    (Open.compound built name).kept = 0 := rfl

/-- The tags that are complete in an open container, and a list's own. A compound is paid for by its
end mark. -/
def Open.held : Open → Nat
  | .list _ _ items => 1 + Tag.sizeItems items
  | .compound built _ => Tag.sizeEntries built.entries.toList

def Focus.held : Focus → Nat
  | .enter _ => 0
  | .climb _ done => done.elim 0 Tag.size

theorem Open.of_acceptDone {done : Option Tag} {o o' : Open} (h : o.acceptDone done = .ok o')
    (entered : TagKind) :
    o'.kept = o.kept ∧ o'.held = (Focus.climb entered done).held + o.held := by
  rcases done with _ | t
  · obtain rfl := Except.ok.inj h
    exact ⟨rfl, (Nat.zero_add _).symm⟩
  rcases o with ⟨element, left, items⟩ | ⟨built, _ | name⟩
  · obtain rfl := Except.ok.inj h
    exact ⟨rfl, Nat.add_left_comm _ _ _⟩
  · contradiction
  · change (built.insert name t).map _ = _ at h
    rcases hinsert : built.insert name t with fault | built' <;> rw [hinsert] at h
    · contradiction
    · obtain rfl := Except.ok.inj h
      obtain ⟨-, -, -, rfl⟩ := Compound.insert_eq_ok_iff.mp hinsert
      refine ⟨rfl, ?_⟩
      rw [held, held, Array.toList_push, Tag.sizeEntries_append_singleton]
      exact Nat.add_comm _ _

/-! ### Moves -/

/-- What is kept of the bytes that were paid for the containers of a stack, and their tags. -/
def kept (stack : List Open) : Nat :=
  (stack.map Open.kept).sum

def held (p : Point) : Nat :=
  p.1.held + (p.2.1.map Open.held).sum

/-- How many points are paid for besides those that the bytes to come pay for. -/
def credit : Focus → List Open → Nat
  | .enter _, stack => 2 + kept stack
  | .climb .., [] => 1
  | .climb .., top :: stack => 1 + 3 * top.kept + kept stack

theorem credit_enter (kind : TagKind) (stack : List Open) :
    credit (.enter kind) stack = 2 + kept stack := rfl

theorem credit_climb_cons (entered : TagKind) (done : Option Tag) (top : Open)
    (stack : List Open) :
    credit (.climb entered done) (top :: stack) = 1 + 3 * top.kept + kept stack := rfl

theorem kept_cons (o : Open) (stack : List Open) : kept (o :: stack) = o.kept + kept stack := by
  rw [kept, List.map_cons, List.sum_cons, kept]

theorem Open.kept_le (o : Open) : o.kept ≤ 1 := by
  cases o with
  | list => exact Nat.le_refl _
  | compound => exact Nat.zero_le _

theorem credit_pos (focus : Focus) (stack : List Open) : 1 ≤ credit focus stack := by
  cases focus with
  | enter kind => exact Nat.le_add_right_of_le (by decide)
  | climb =>
    cases stack with
    | nil => exact Nat.le_refl _
    | cons top stack => exact Nat.le_add_right_of_le (Nat.le_add_right _ _)

/-- With a tag that is complete a container takes up what it has kept, and one byte pays for the
rest. -/
theorem credit_climb_le (entered : TagKind) (done : Option Tag) (stack : List Open) :
    credit (.climb entered done) stack ≤ 3 + kept stack := by
  cases stack with
  | nil => exact Nat.le_add_right_of_le (show 1 ≤ 3 by decide)
  | cons top stack =>
    have := top.kept_le
    rw [credit, kept_cons]
    omega

/-- A point is paid for by what is kept or by the bytes that are read there. -/
theorem Sound.credit_move {p q : Point} (h : Sound p) (hmove : Move p q) :
    1 + credit q.1 q.2.1 + 3 * q.2.2.pending.length ≤
      credit p.1 p.2.1 + 3 * p.2.2.pending.length := by
  cases hmove with
  | @scalar kind stack s s' t hlist hcompound hscalar =>
    have hread := consumes_scalar h.kind_ne hscalar
    have hclimb := credit_climb_le kind (some t) stack
    simp only [credit_enter]
    omega
  | openList hroom hheading =>
    have hread := consumes_listHeading hheading
    simp only [credit_enter, credit_climb_cons, Open.kept_list]
    omega
  | openCompound hroom =>
    -- no byte is read: of the two points that entering has, the other is for the climb
    simp only [credit_enter, credit_climb_cons, Open.kept_compound]
    omega
  | @element entered done top stack s element left items ho =>
    -- nor is one read here: the list pays, and has it back from the bytes of the element
    have htop : 1 = top.kept := (Open.of_acceptDone ho entered).1
    simp only [credit_enter, credit_climb_cons, kept_cons, Open.kept_list]
    omega
  | @closeList entered done top stack s element items t ho hclose =>
    have htop : 1 = top.kept := (Open.of_acceptDone ho entered).1
    have hclimb := credit_climb_le entered (some t) stack
    simp only [credit_climb_cons]
    omega
  | child ho hheading =>
    have hread := consumes_childHeading hheading
    simp only [credit_enter, credit_climb_cons, kept_cons, Open.kept_compound]
    omega
  | @closeCompound entered done top stack s s' built last ho hheading =>
    have hread := consumes_childHeading hheading
    have hclimb := credit_climb_le entered (some built.toTag) stack
    simp only [credit_climb_cons]
    omega

theorem held_cons (focus : Focus) (o : Open) (stack : List Open) (s : Source) :
    held (focus, o :: stack, s) = focus.held + (o.held + (stack.map Open.held).sum) := rfl

/-- What is given to a container is held by it from then on. -/
theorem held_climb_cons {done : Option Tag} {top o : Open} (h : top.acceptDone done = .ok o)
    (entered : TagKind) (stack : List Open) (s : Source) :
    held (.climb entered done, top :: stack, s) = o.held + (stack.map Open.held).sum := by
  rw [held_cons, (Open.of_acceptDone h entered).2, Nat.add_assoc]

/-- What is held is paid for by the bytes that are read. -/
theorem Sound.held_move {p q : Point} (h : Sound p) (hmove : Move p q) :
    held q + q.2.2.pending.length ≤ held p + p.2.2.pending.length := by
  cases hmove with
  | @scalar kind stack s s' t hlist hcompound hscalar =>
    have hread := consumes_scalar h.kind_ne hscalar
    have hsame := kind_of_scalar hscalar
    have hsize : t.size = 1 := Tag.size_of_leaf (hsame ▸ hlist) (hsame ▸ hcompound)
    simp only [held, Focus.held, Option.elim]
    omega
  | openList hroom hheading =>
    have hread := consumes_listHeading hheading
    simp only [held, Focus.held, Option.elim, List.map_cons, List.sum_cons, Open.held,
      Tag.sizeItems]
    omega
  | openCompound hroom =>
    simp only [held, Focus.held, Option.elim, List.map_cons, List.sum_cons, Open.held,
      Compound.empty, Tag.sizeEntries]
    omega
  | element ho =>
    rw [held_climb_cons ho]
    simp only [held_cons, Focus.held, Open.held]
    omega
  | closeList ho hclose =>
    obtain rfl := Except.ok.inj ((h.closes ho).symm.trans hclose)
    rw [held_climb_cons ho]
    simp only [held, Focus.held, Option.elim, Open.held, Tag.size, Tag.sizeItems_reverse]
    omega
  | child ho hheading =>
    have hread := consumes_childHeading hheading
    rw [held_climb_cons ho]
    simp only [held_cons, Focus.held, Open.held]
    omega
  | closeCompound ho hheading =>
    have hread := consumes_childHeading hheading
    rw [held_climb_cons ho]
    simp only [held, Focus.held, Option.elim, Open.held, Compound.toTag, Tag.size]
    omega

theorem Move.length_le {p q : Point} (hmove : Move p q) (h : p.2.1.length ≤ maxDepth) :
    q.2.1.length ≤ maxDepth := by
  cases hmove with
  | scalar => exact h
  | openList hroom => exact hroom
  | openCompound hroom => exact hroom
  | element => exact h
  | child => exact h
  | closeList => exact Nat.le_of_succ_le h
  | closeCompound => exact Nat.le_of_succ_le h

/-! ### Courses and readings -/

theorem Course.length_le {p : Point} {points : List Point} {result : Except Fault Tag × Source}
    (h : Course p points result) (hp : Sound p) :
    points.length + 3 * result.2.pending.length ≤
      credit p.1 p.2.1 + 3 * p.2.2.pending.length := by
  refine h.induct Sound (fun p points result => points.length + 3 * result.2.pending.length ≤
    credit p.1 p.2.1 + 3 * p.2.2.pending.length) Sound.move ?_ ?_ hp
  · intro p result hp hend
    have hpos := credit_pos p.1 p.2.1
    have hleft := (hp.endsOrderly hend).behind.length_le
    rw [List.length_singleton]
    omega
  · intro p q points result hp hmove hrest
    have hpaid := hp.credit_move hmove
    rw [List.length_cons]
    omega

theorem Course.depth_le {p : Point} {points : List Point} {result : Except Fault Tag × Source}
    (h : Course p points result) (hp : p.2.1.length ≤ maxDepth) :
    ∀ q ∈ points, q.2.1.length ≤ maxDepth :=
  h.induct (fun p => p.2.1.length ≤ maxDepth)
    (fun _ points _ => ∀ q ∈ points, q.2.1.length ≤ maxDepth)
    (fun hp hmove => hmove.length_le hp)
    (fun hp _ => List.forall_mem_singleton.mpr hp)
    (fun hp _ hrest => List.forall_mem_cons.mpr ⟨hp, hrest⟩) hp

theorem Course.size_le {p : Point} {points : List Point} {result : Except Fault Tag × Source}
    (h : Course p points result) (hp : Sound p) {t : Tag} (ht : result.1 = .ok t) :
    t.size + result.2.pending.length ≤ held p + p.2.2.pending.length := by
  refine h.induct Sound (fun p _ result => ∀ t, result.1 = .ok t →
    t.size + result.2.pending.length ≤ held p + p.2.2.pending.length) Sound.move ?_ ?_ hp t ht
  · intro p result hp hend t ht
    cases hend with
    | finished =>
      obtain rfl := Except.ok.inj ht
      exact Nat.le_refl _
    | _ => contradiction
  · intro p q points result hp hmove hrest t ht
    exact Nat.le_trans (hrest t ht) (hp.held_move hmove)

/-- The bounds on the points of a reading and on the tree that it gives, by the bytes that are
read. -/
structure Bounded (s : Source) (points : List Point) (result : Except Fault Root × Source) :
    Prop where
  steps : points.length ≤ 3 * (s.pending.length - result.2.pending.length)
  nesting : ∀ p ∈ points, p.2.1.length ≤ 512
  tags : ∀ root, result.1 = .ok root →
    root.tag.size ≤ s.pending.length - result.2.pending.length

theorem Reading.bounded {header : Header} {s : Source} {points : List Point}
    {result : Except Fault Root × Source} (h : Reading header s points result) :
    Bounded s points result := by
  cases h with
  | refused hheading =>
    exact ⟨Nat.zero_le _, List.forall_mem_nil _, fun _ h => nomatch h⟩
  | @endMark s' hheading =>
    refine ⟨Nat.zero_le _, List.forall_mem_nil _, fun root hroot => ?_⟩
    obtain rfl := Except.ok.inj hroot
    have hread := consumes_heading header hheading
    exact Nat.sub_pos_of_lt hread
  | @tree kind name s₁ s' points outcome hheading hkind hcourse =>
    have hread := consumes_heading header hheading
    have hsound := sound_payload hkind s₁
    have hlength := hcourse.length_le hsound
    have hcredit : credit (.enter kind) [] = 2 := rfl
    refine ⟨?_, hcourse.depth_le (Nat.zero_le _), fun root hroot => ?_⟩
    · dsimp only at hlength ⊢
      omega
    · cases outcome with
      | error fault => contradiction
      | ok t =>
        obtain rfl := Except.ok.inj hroot
        have hsize := hcourse.size_le hsound rfl
        have hheld : held (.enter kind, [], s₁) = 0 := rfl
        dsimp only at hsize ⊢
        omega

/-- Whatever the bytes and the header, the loop ends after at most three points for each byte that
is read, with at most 512 containers open at each of them, and a tree that it gives has at most as
many tags as bytes were read. -/
theorem root_reading_bounded (header : Header) (s : Source) :
    ∃ points, Reading header s points (root header s) ∧ Bounded s points (root header s) := by
  obtain ⟨points, hreading⟩ := exists_reading header s
  exact ⟨points, hreading, hreading.bounded⟩

end Read

end MinecraftWire.Nbt
