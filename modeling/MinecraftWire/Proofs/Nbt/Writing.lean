import MinecraftWire.Proofs.Nbt.Form
import MinecraftWire.Proofs.Text.Field

/-! The loop of the writer is a recursion over the tree. Whatever is open, writing a tag comes down to
putting out its pieces, up to the first that cannot be written. They make up its form if the tree
keeps within the limits; otherwise a first part of the form is put out, and the fault tells which
limit was met: that of nesting, or that of some length. -/

namespace MinecraftWire

/-! ### Pieces and the form they are of -/

namespace Pieces

theorem assemble_append (ps qs : Pieces) : assemble (ps ++ qs) =
    match assemble ps with
    | (front, none) => (front ++ qs.assemble.1, qs.assemble.2)
    | (front, some fault) => (front, some fault) := by
  induction ps with
  | nil => rfl
  | cons piece ps ih =>
    rcases piece with fault | bytes
    · rfl
    · simp only [List.cons_append, assemble, ih]
      rcases assemble ps with ⟨front, _ | fault⟩
      · simp
      · rfl

/-- All pieces of a form can be written, within its limits, or those before one that is refused. -/
inductive Outcome (form : Bytes) (limits : Prop) (refused : Fault → Prop) (ps : Pieces) : Prop where
  | all (h : ps.assemble = (form, none)) (hlimits : limits)
  | upTo {front : Bytes} {fault : Fault} (h : ps.assemble = (front, some fault))
      (hfront : front <+: form) (hfault : refused fault)

variable {form form' : Bytes} {limits limits' : Prop} {refused refused' : Fault → Prop}
  {ps qs : Pieces}

theorem Outcome.imp (h : Outcome form limits refused ps) (hlimits : limits → limits')
    (hrefused : ∀ fault, refused fault → refused' fault) : Outcome form limits' refused' ps := by
  cases h with
  | all h hl => exact .all h (hlimits hl)
  | upTo h hfront hfault => exact .upTo h hfront (hrefused _ hfault)

theorem Outcome.append (hp : Outcome form limits refused ps)
    (hq : Outcome form' limits' refused' qs) :
    Outcome (form ++ form') (limits ∧ limits') (fun fault => refused fault ∨ refused' fault)
      (ps ++ qs) := by
  cases hp with
  | upTo hp hfront hfault =>
    refine .upTo (by rw [assemble_append, hp]) ?_ (.inl hfault)
    exact hfront.trans (List.prefix_append form form')
  | all hp hl =>
    cases hq with
    | all hq hl' => exact .all (by rw [assemble_append, hp, hq]) ⟨hl, hl'⟩
    | upTo hq hfront hfault =>
      refine .upTo (by rw [assemble_append, hp, hq]) ?_ (.inr hfault)
      exact (List.prefix_append_right_inj form).mpr hfront

theorem outcome_nil : Outcome [] True (fun _ => False) [] :=
  .all rfl trivial

/-- A piece that cannot fail. -/
theorem outcome_ok (bytes : Bytes) : Outcome bytes True (fun _ => False) [.ok bytes] :=
  .all (by simp [assemble]) trivial

/-- A piece with one limit. -/
theorem outcome_ite {bytes : Bytes} {fault : Fault} [Decidable limits] :
    Outcome bytes limits (fun f => ¬ limits ∧ f = fault)
      [if limits then .ok bytes else .error fault] := by
  by_cases h : limits
  · rw [if_pos h]
    exact (outcome_ok bytes).imp (fun _ => h) fun _ => False.elim
  · rw [if_neg h]
    exact .upTo rfl List.nil_prefix ⟨h, rfl⟩

end Pieces

namespace Nbt

open Tag

namespace Tag

/-! ### What is refused -/

/-- The tag or one inside it has a property. -/
inductive Has (P : Tag → Prop) : Tag → Prop where
  | here {t : Tag} (h : P t) : Has P t
  | inside {t u : Tag} (hu : u ∈ t.children) (h : u.Has P) : Has P t

theorem Has.not_all {P Q : Tag → Prop} (hPQ : ∀ t, P t → ¬ Q t) {t : Tag} (h : t.Has P) :
    ¬ t.All Q := by
  induction h with
  | here h => exact fun hall => hPQ _ h hall.here
  | inside hu _ ih => exact fun hall => ih (hall.child hu)

/-- The bounds on the number of elements of a list or array. -/
def countBounds (kind : TagKind) (n : Nat) : OutOfRange :=
  ⟨kind.name, .elements n, .number 0, .number maxElements⟩

/-- The bounds on the bytes of a text or name. -/
def textBounds (s : String) : OutOfRange :=
  ⟨TagKind.string.name, .bytes s.utf8ByteSize, .number 0, .number maxTextBytes⟩

/-- A length of the tag itself that its form cannot tell, with the bounds that it breaks. -/
inductive TooLong : OutOfRange → Tag → Prop where
  | byteArray {vs : List Int8} (h : maxElements < vs.length) :
      TooLong (countBounds .byteArray vs.length) (byteArray vs)
  | string {s : String} (h : maxTextBytes < s.utf8ByteSize) : TooLong (textBounds s) (string s)
  | list {kind : TagKind} {items : List Tag} (h : maxElements < items.length) :
      TooLong (countBounds .list items.length) (list kind items)
  | name {entries : List (String × Tag)} {e : String × Tag} (he : e ∈ entries)
      (h : maxTextBytes < e.1.utf8ByteSize) : TooLong (textBounds e.1) (compound entries)
  | intArray {vs : List Int32} (h : maxElements < vs.length) :
      TooLong (countBounds .intArray vs.length) (intArray vs)
  | longArray {vs : List Int64} (h : maxElements < vs.length) :
      TooLong (countBounds .longArray vs.length) (longArray vs)

theorem TooLong.not_fits {bounds : OutOfRange} {t : Tag} (h : TooLong bounds t) : ¬ t.Fits := by
  cases h with
  | name he h => exact fun hfits => Nat.not_lt.mpr (hfits _ he) h
  | byteArray h | string h | list h | intArray h | longArray h => exact Nat.not_le.mpr h

/-- The fault of a tree that cannot be written where `room` containers may be open at once. -/
inductive Refused (room : Nat) (t : Tag) : Fault → Prop where
  | nesting (h : room < t.depth) : Refused room t (.format (.nbt .nesting))
  | length {bounds : OutOfRange} (h : t.Has (TooLong bounds)) : Refused room t (.range bounds)

/-- A tree that can be written where `room` containers may be open at once. -/
def Admitted (room : Nat) (t : Tag) : Prop :=
  t.All Fits ∧ t.depth ≤ room

variable {room : Nat} {t u : Tag} {fault : Fault}

theorem Refused.not_admitted (h : t.Refused room fault) : ¬ t.Admitted room := by
  cases h with
  | nesting h => exact fun hadmitted => Nat.not_le.mpr h hadmitted.2
  | length h => exact fun hadmitted => h.not_all (fun _ => TooLong.not_fits) hadmitted.1

theorem Refused.inside (h : u.Refused room fault) (hu : u ∈ t.children)
    (hdepth : u.depth + 1 ≤ t.depth) : t.Refused (room + 1) fault := by
  cases h with
  | nesting h => exact .nesting (by omega)
  | length h => exact .length (.inside hu h)

theorem depth_le_depthItems {items : List Tag} (h : t ∈ items) : t.depth ≤ depthItems items := by
  induction items with
  | nil => exact absurd h List.not_mem_nil
  | cons u items ih =>
    rw [depthItems]
    rcases List.mem_cons.mp h with rfl | h
    · exact Nat.le_max_left _ _
    · exact Nat.le_trans (ih h) (Nat.le_max_right _ _)

theorem depth_le_depthEntries {entries : List (String × Tag)} {e : String × Tag} (h : e ∈ entries) :
    e.2.depth ≤ depthEntries entries := by
  induction entries with
  | nil => exact absurd h List.not_mem_nil
  | cons e' entries ih =>
    rw [depthEntries]
    rcases List.mem_cons.mp h with rfl | h
    · exact Nat.le_max_left _ _
    · exact Nat.le_trans (ih h) (Nat.le_max_right _ _)

/-! ### The pieces of a tag -/

mutual

/-- What is to be written of a tag where `room` containers may be open at once. -/
def pieces : Tag → Nat → Pieces
  | list _ _, 0 => [.error (.format (.nbt .nesting))]
  | compound _, 0 => [.error (.format (.nbt .nesting))]
  | list kind items, room + 1 => Write.listHeading kind items ++ piecesItems items room
  | compound entries, room + 1 => piecesEntries entries room
  | t, _ => [Write.scalar t]
termination_by structural t => t

def piecesItems : List Tag → Nat → Pieces
  | [], _ => []
  | t :: items, room => t.pieces room ++ piecesItems items room
termination_by structural items => items

def piecesEntries : List (String × Tag) → Nat → Pieces
  | [], _ => [.ok [TagKind.endMark.id]]
  | (name, t) :: entries, room =>
    Write.childHeading name t ++ (t.pieces room ++ piecesEntries entries room)
termination_by structural entries => entries

end

end Tag

section Outcome

open Pieces

variable {t : Tag} {room : Nat}

/-! ### Outcomes of the pieces -/

theorem outcome_count (kind : TagKind) (n : Nat) :
    Outcome (countForm n) (n ≤ maxElements)
      (fun fault => maxElements < n ∧ fault = .range (countBounds kind n))
      [Write.count kind n] :=
  outcome_ite.imp id fun _ h => ⟨Nat.lt_of_not_le h.1, h.2⟩

theorem outcome_text (s : String) :
    Outcome (textForm s) (s.utf8ByteSize ≤ maxTextBytes)
      (fun fault => maxTextBytes < s.utf8ByteSize ∧ fault = .range (textBounds s))
      [Write.text s] :=
  outcome_ite.imp id fun _ h => ⟨Nat.lt_of_not_le h.1, h.2⟩

theorem outcome_array {α : Type} [FixedWidth α] (kind : TagKind) (vs : List α) :
    Outcome (arrayForm vs) (vs.length ≤ maxElements)
      (fun fault => maxElements < vs.length ∧ fault = .range (countBounds kind vs.length))
      [Write.array kind vs] := by
  have harray : Write.array kind vs = if vs.length ≤ maxElements then .ok (arrayForm vs)
      else .error (.range (countBounds kind vs.length)) := by
    unfold Write.array Write.count
    split <;> rfl
  rw [harray]
  exact outcome_ite.imp id fun _ h => ⟨Nat.lt_of_not_le h.1, h.2⟩

/-- A tag that holds no others has no limits but its own. -/
theorem outcome_leaf {form : Bytes} {ps : Pieces} (hchildren : t.children = []) (hdepth : t.depth = 0)
    (h : Outcome form t.Fits (fun fault => ∃ bounds, TooLong bounds t ∧ fault = .range bounds) ps) :
    Outcome form (t.Admitted room) (t.Refused room) ps := by
  refine h.imp (fun hfits => ⟨(all_iff_of_children_nil hchildren).mpr hfits, ?_⟩) ?_
  · rw [hdepth]
    exact Nat.zero_le room
  · rintro _ ⟨bounds, hlong, rfl⟩
    exact .length (.here hlong)

theorem outcome_scalar (hlist : t.kind ≠ .list) (hcompound : t.kind ≠ .compound) :
    Outcome t.form (t.Admitted room) (t.Refused room) [Write.scalar t] := by
  cases t with
  | list kind items => exact absurd rfl hlist
  | compound entries => exact absurd rfl hcompound
  | byteArray vs =>
    exact outcome_leaf rfl rfl ((outcome_array _ vs).imp id fun _ h => ⟨_, .byteArray h.1, h.2⟩)
  | string s =>
    exact outcome_leaf rfl rfl ((outcome_text s).imp id fun _ h => ⟨_, .string h.1, h.2⟩)
  | intArray vs =>
    exact outcome_leaf rfl rfl ((outcome_array _ vs).imp id fun _ h => ⟨_, .intArray h.1, h.2⟩)
  | longArray vs =>
    exact outcome_leaf rfl rfl ((outcome_array _ vs).imp id fun _ h => ⟨_, .longArray h.1, h.2⟩)
  | _ => exact outcome_leaf rfl rfl ((outcome_ok _).imp (fun _ => trivial) fun _ => False.elim)

theorem outcome_listHeading (kind : TagKind) (items : List Tag) :
    Outcome (listHeadingForm kind items) (items.length ≤ maxElements)
      (fun fault => maxElements < items.length ∧ fault = .range (countBounds .list items.length))
      (Write.listHeading kind items) := by
  have hform : listHeadingForm kind items =
      [if items.isEmpty then TagKind.endMark.id else kind.id] ++ countForm items.length := by
    simp [listHeadingForm, formKind, apply_ite]
  rw [hform]
  exact ((outcome_ok _).append (outcome_count .list items.length)).imp And.right
    fun _ h => h.resolve_left id

theorem outcome_childHeading (name : String) (t : Tag) :
    Outcome (t.kind.id :: textForm name) (name.utf8ByteSize ≤ maxTextBytes)
      (fun fault => maxTextBytes < name.utf8ByteSize ∧ fault = .range (textBounds name))
      (Write.childHeading name t) :=
  ((outcome_ok [t.kind.id]).append (outcome_text name)).imp And.right fun _ h => h.resolve_left id

/-- What the limits ask of a compound's child. -/
def AdmittedChild (room : Nat) (e : String × Tag) : Prop :=
  e.1.utf8ByteSize ≤ maxTextBytes ∧ e.2.Admitted room

/-- The fault of a child that cannot be written. -/
def RefusedChild (room : Nat) (e : String × Tag) (fault : Fault) : Prop :=
  (maxTextBytes < e.1.utf8ByteSize ∧ fault = .range (textBounds e.1)) ∨ e.2.Refused room fault

theorem admitted_list {kind : TagKind} {items : List Tag} (hlength : items.length ≤ maxElements)
    (h : ∀ t ∈ items, t.Admitted room) : (list kind items).Admitted (room + 1) :=
  ⟨.node hlength fun t ht => (h t ht).1, Nat.succ_le_succ (depthItems_le fun t ht => (h t ht).2)⟩

theorem admitted_compound {entries : List (String × Tag)} (h : ∀ e ∈ entries, AdmittedChild room e) :
    (compound entries).Admitted (room + 1) := by
  refine ⟨.node (fun e he => (h e he).1) fun t ht => ?_,
    Nat.succ_le_succ (depthEntries_le fun e he => (h e he).2.2)⟩
  obtain ⟨e, he, rfl⟩ := List.mem_map.mp ht
  exact (h e he).2.1

theorem refused_compound {entries : List (String × Tag)} {e : String × Tag} {fault : Fault}
    (he : e ∈ entries) (h : RefusedChild room e fault) :
    (compound entries).Refused (room + 1) fault := by
  rcases h with ⟨hlong, rfl⟩ | h
  · exact .length (.here (.name he hlong))
  · exact h.inside (List.mem_map_of_mem he) (Nat.succ_le_succ (depth_le_depthEntries he))

mutual

/-- The pieces of a tag are those of its form, as far as its limits let them be written. -/
theorem outcome_pieces (t : Tag) (room : Nat) :
    Outcome t.form (t.Admitted room) (t.Refused room) (t.pieces room) := by
  cases t with
  | list kind items =>
    cases room with
    | zero => exact .upTo rfl List.nil_prefix (.nesting (Nat.succ_pos _))
    | succ room =>
      rw [form, pieces]
      refine ((outcome_listHeading kind items).append (outcome_piecesItems items room)).imp
        (fun h => admitted_list h.1 h.2) ?_
      rintro fault (⟨hlong, rfl⟩ | ⟨t, ht, h⟩)
      · exact .length (.here (.list hlong))
      · exact h.inside ht (Nat.succ_le_succ (depth_le_depthItems ht))
  | compound entries =>
    cases room with
    | zero => exact .upTo rfl List.nil_prefix (.nesting (Nat.succ_pos _))
    | succ room =>
      rw [form, pieces]
      refine (outcome_piecesEntries entries room).imp admitted_compound ?_
      rintro fault ⟨e, he, h⟩
      exact refused_compound he h
  | _ => exact outcome_scalar (by simp [kind]) (by simp [kind])
termination_by structural t

theorem outcome_piecesItems (items : List Tag) (room : Nat) :
    Outcome (formItems items) (∀ t ∈ items, t.Admitted room)
      (fun fault => ∃ t ∈ items, t.Refused room fault) (piecesItems items room) := by
  cases items with
  | nil => exact outcome_nil.imp (fun _ => List.forall_mem_nil _) fun _ => False.elim
  | cons t items =>
    refine ((outcome_pieces t room).append (outcome_piecesItems items room)).imp
      List.forall_mem_cons.mpr ?_
    rintro fault (h | ⟨u, hu, h⟩)
    · exact ⟨t, List.mem_cons_self, h⟩
    · exact ⟨u, List.mem_cons_of_mem _ hu, h⟩
termination_by structural items

theorem outcome_piecesEntries (entries : List (String × Tag)) (room : Nat) :
    Outcome (formEntries entries) (∀ e ∈ entries, AdmittedChild room e)
      (fun fault => ∃ e ∈ entries, RefusedChild room e fault) (piecesEntries entries room) := by
  cases entries with
  | nil => exact (outcome_ok _).imp (fun _ => List.forall_mem_nil _) fun _ => False.elim
  | cons e entries =>
    obtain ⟨name, t⟩ := e
    have hrest := (outcome_pieces t room).append (outcome_piecesEntries entries room)
    rw [formEntries, List.append_assoc]
    refine ((outcome_childHeading name t).append hrest).imp
      (fun h => List.forall_mem_cons.mpr ⟨⟨h.1, h.2.1⟩, h.2.2⟩) ?_
    rintro fault (h | h | ⟨e, he, h⟩)
    · exact ⟨(name, t), List.mem_cons_self, .inl h⟩
    · exact ⟨(name, t), List.mem_cons_self, .inr h⟩
    · exact ⟨e, List.mem_cons_of_mem _ he, h⟩
termination_by structural entries

end

end Outcome

/-! ### The loop -/

namespace Write

variable {stack : List Open} {done : Bytes}

/-- Put out pieces and go on, or stop at the first that cannot be written. -/
def put (ps : Pieces) (next : Bytes → Bytes × Option Fault) (done : Bytes) : Bytes × Option Fault :=
  match ps.assemble with
  | (bytes, some fault) => (bytes.reverseAux done, some fault)
  | (bytes, none) => next (bytes.reverseAux done)

theorem put_append (ps qs : Pieces) (next : Bytes → Bytes × Option Fault) :
    put (ps ++ qs) next = put ps (put qs next) := by
  funext done
  simp only [put, Pieces.assemble_append]
  rcases Pieces.assemble ps with ⟨front, _ | fault⟩
  · rcases Pieces.assemble qs with ⟨back, _ | fault⟩ <;>
      simp [List.reverseAux_eq]
  · rfl

theorem run_done (done : Bytes) : run none [] done = (done, none) := by
  rw [run]

theorem run_enter (t : Tag) : run (some t) stack = put (enter stack t).1 (run none (enter stack t).2) := by
  funext done
  rw [run]
  unfold put
  rcases Pieces.assemble (enter stack t).1 with ⟨bytes, _ | fault⟩ <;> rfl

theorem run_climb (top : Open) : run none (top :: stack) =
    put (climb top stack).1 (run (climb top stack).2.1 (climb top stack).2.2) := by
  funext done
  rw [run]
  unfold put
  rcases Pieces.assemble (climb top stack).1 with ⟨bytes, _ | fault⟩ <;> rfl

theorem run_scalar {t : Tag} (hlist : t.kind ≠ .list) (hcompound : t.kind ≠ .compound) :
    run (some t) stack = put [scalar t] (run none stack) := by
  rw [run_enter]
  cases t with
  | list kind items => exact absurd rfl hlist
  | compound entries => exact absurd rfl hcompound
  | _ => rfl

/-- A container is refused before anything is put out of it where there is no room, and otherwise the
check puts out nothing. -/
theorem put_checkDepth (ps : Pieces) (next : Bytes → Bytes × Option Fault) {room : Nat}
    (hroom : stack.length + room = maxDepth) : put (checkDepth stack :: ps) next =
      match room with
      | 0 => put [.error (.format (.nbt .nesting))] next
      | _ + 1 => put ps next := by
  funext done
  cases room with
  | zero =>
    rw [checkDepth, if_neg (by omega)]
    rfl
  | succ room =>
    rw [checkDepth, if_pos (by omega)]
    simp [put, Pieces.assemble]

mutual

/-- Whatever is open, the loop puts out the pieces of a tag and goes on below it. -/
theorem run_tag (t : Tag) (stack : List Open) (room : Nat) (hroom : stack.length + room = maxDepth) :
    run (some t) stack = put (t.pieces room) (run none stack) := by
  cases t with
  | list kind items =>
    rw [run_enter, enter, put_checkDepth _ _ hroom]
    cases room with
    | zero => rfl
    | succ room =>
      rw [pieces, put_append, ← run_items items stack room hroom]
  | compound entries =>
    rw [run_enter, enter, put_checkDepth _ _ hroom]
    cases room with
    | zero => rfl
    | succ room =>
      rw [pieces, ← run_entries entries stack room hroom]
      rfl
  | _ => exact run_scalar (by simp [kind]) (by simp [kind])
termination_by structural t

theorem run_items (items : List Tag) (stack : List Open) (room : Nat)
    (hroom : stack.length + (room + 1) = maxDepth) :
    run none (.list items :: stack) = put (piecesItems items room) (run none stack) := by
  rw [run_climb]
  cases items with
  | nil => rfl
  | cons t items =>
    rw [piecesItems, put_append, ← run_items items stack room hroom]
    exact run_tag t (.list items :: stack) room (by rw [List.length_cons]; omega)
termination_by structural items

theorem run_entries (entries : List (String × Tag)) (stack : List Open) (room : Nat)
    (hroom : stack.length + (room + 1) = maxDepth) :
    run none (.compound entries :: stack) = put (piecesEntries entries room) (run none stack) := by
  rw [run_climb]
  cases entries with
  | nil => rfl
  | cons e entries =>
    obtain ⟨name, t⟩ := e
    rw [piecesEntries, put_append, put_append, ← run_entries entries stack room hroom,
      ← run_tag t (.compound entries :: stack) room (by rw [List.length_cons]; omega)]
    rfl
termination_by structural entries

end

/-- Behind any output the pieces of a tag are appended, as far as they can be written. -/
theorem append_eq (t : Tag) (out : Bytes) : append t out =
    (out ++ (Pieces.assemble (t.pieces maxDepth)).1, (Pieces.assemble (t.pieces maxDepth)).2) := by
  rw [append, run_tag t [] maxDepth (Nat.zero_add _), put]
  rcases Pieces.assemble (t.pieces maxDepth) with ⟨bytes, _ | fault⟩
  · simp [run_done, List.reverseAux_eq]
  · simp [List.reverseAux_eq]

theorem append_of_admitted {t : Tag} (h : t.Admitted maxDepth) (out : Bytes) :
    append t out = (out ++ t.form, none) := by
  rw [append_eq]
  cases outcome_pieces t maxDepth with
  | all hall _ => rw [hall]
  | upTo _ _ hrefused => exact absurd h hrefused.not_admitted

theorem append_of_not_admitted {t : Tag} (h : ¬ t.Admitted maxDepth) (out : Bytes) :
    ∃ front fault, append t out = (out ++ front, some fault) ∧ front <+: t.form ∧
      t.Refused maxDepth fault := by
  rw [append_eq]
  cases outcome_pieces t maxDepth with
  | all _ hadmitted => exact absurd hadmitted h
  | upTo hfault hfront hrefused => exact ⟨_, _, by rw [hfault], hfront, hrefused⟩

/-- Behind any output, writing a tree ends without a fault exactly if at most 512 containers nest in
it and every text, name, array and list keeps within its greatest length. Then the form of the tree is
appended. Otherwise a first part of the form is, and the fault is that of the nesting, where it is too
deep, or that of a length that is too great. -/
theorem append_form_or_refused (t : Tag) (out : Bytes) :
    ((append t out).2 = none ↔ t.depth ≤ maxDepth ∧ t.All Fits) ∧
      (t.depth ≤ maxDepth ∧ t.All Fits → append t out = (out ++ t.form, none)) ∧
      (¬ (t.depth ≤ maxDepth ∧ t.All Fits) → ∃ front fault,
        append t out = (out ++ front, some fault) ∧ front <+: t.form ∧ t.Refused maxDepth fault) := by
  rw [and_comm (a := t.depth ≤ maxDepth), ← Admitted]
  refine ⟨?_, fun h => append_of_admitted h out, fun h => append_of_not_admitted h out⟩
  by_cases h : t.Admitted maxDepth
  · rw [append_of_admitted h]
    exact iff_of_true rfl h
  · obtain ⟨front, fault, happend, -⟩ := append_of_not_admitted h out
    rw [happend]
    exact iff_of_false (Option.some_ne_none fault) h

end Write

/-! ### Roots -/

/-- A root within the limits is written: its kind, its name if the header has one, its payload. -/
theorem encode_eq {header : Header} {root : Root} (hfits : root.tag.All Tag.Fits)
    (hdepth : root.tag.depth ≤ maxDepth)
    (hname : (root.name.getD "").utf8ByteSize ≤ maxTextBytes) :
    root.encode header = .ok (root.form header) := by
  unfold Root.encode Root.form
  by_cases hkind : root.tag.kind = .endMark
  · rw [if_pos hkind, if_pos hkind]
  · rw [if_neg hkind, if_neg hkind]
    have hpayload : Write.payload root.tag = (root.tag.form, none) :=
      Write.append_of_admitted ⟨hfits, hdepth⟩ []
    have htext : Write.text (root.name.getD "") = .ok (textForm (root.name.getD "")) := if_pos hname
    cases header with
    | named => simp [Pieces.bytes, Pieces.assemble, htext, hpayload]
    | unnamed => simp [Pieces.bytes, Pieces.assemble, hpayload]

end Nbt

end MinecraftWire
