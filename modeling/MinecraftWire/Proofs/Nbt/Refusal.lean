import Mathlib.Logic.Relation
import MinecraftWire.Proofs.Nbt.Spelling
import MinecraftWire.Proofs.Reader.Refusal

/-! Lengths that no tree has. A negative length, or a positive number of end marks, is refused where
the reader comes to it, with nothing read behind it. By induction on the steps of the loop these
places are all of those from which the reader reports such a length. -/

namespace MinecraftWire.Nbt

open FixedWidth (put)
open Reader

namespace Read

/-! ### Parts -/

/-- What is said of a text, and of an array or a list, whose length is negative. -/
def negativeText (n : Int16) : Fault :=
  .format (.nbt (.stringLength n.toInt))

def negativeCount (kind : TagKind) (n : Int32) : Fault :=
  .format (.nbt (.length kind n.toInt))

/-- What is said of a list with end marks for elements. -/
def endMarks (n : Int32) : Fault :=
  .format (.nbt (.endElements n.toInt.toNat))

theorem yields_kind (kind : TagKind) (rest : Bytes) :
    Read.kind.Yields [kind.id] rest (.ok kind) := by
  have hkind : (lift (TagKind.ofByte kind.id)).Yields [] rest (.ok kind) := by
    rw [TagKind.ofByte, TagKind.ofId?_id]
    exact yields_pure kind rest
  have hput : put kind.id = [kind.id] := by cases kind <;> rfl
  rw [← hput]
  exact (yields_value kind.id rest).bind_nil hkind

theorem yields_text {n : Int16} (h : n < 0) (rest : Bytes) :
    text.Yields (put n) rest (.error (negativeText n)) := by
  refine (yields_value n rest).bind_nil ?_
  rw [if_pos h]
  exact yields_fail _ rest

theorem yields_count (kind : TagKind) (n : Int32) (rest : Bytes) : (count kind).Yields (put n) rest
    (if n < 0 then .error (negativeCount kind n) else .ok n.toInt.toNat) := by
  refine (yields_value n rest).bind_nil ?_
  by_cases h : n < 0
  · rw [if_pos h, if_pos h]
    exact yields_fail _ rest
  · rw [if_neg h, if_neg h]
    exact yields_pure _ rest

theorem yields_negativeCount (kind : TagKind) {n : Int32} (h : n < 0) (rest : Bytes) :
    (count kind).Yields (put n) rest (.error (negativeCount kind n)) := by
  have hcount := yields_count kind n rest
  rwa [if_pos h] at hcount

theorem yields_listHeading (element : TagKind) {n : Int32} (h : n < 0) (rest : Bytes) :
    listHeading.Yields (element.id :: put n) rest (.error (negativeCount .list n)) :=
  (yields_kind element _).bind ((yields_negativeCount .list h rest).fault_bind _)

theorem yields_endMarks {n : Int32} (h : 0 < n) (rest : Bytes) :
    listHeading.Yields (TagKind.endMark.id :: put n) rest (.error (endMarks n)) := by
  have hpos : 0 < n.toInt := Int32.lt_iff_toInt_lt.mp h
  have hcount := yields_count .list n rest
  rw [if_neg fun hneg : n < 0 => Int.lt_asymm hpos (Int32.lt_iff_toInt_lt.mp hneg)] at hcount
  refine (yields_kind .endMark _).bind (hcount.bind_nil ?_)
  rw [if_pos ⟨rfl, by omega⟩]
  exact yields_fail _ rest

theorem yields_childHeading {kind : TagKind} (hkind : kind ≠ .endMark) {n : Int16} (h : n < 0)
    (rest : Bytes) : childHeading.Yields (kind.id :: put n) rest (.error (negativeText n)) := by
  refine (yields_kind kind _).bind ?_
  rw [if_neg hkind]
  exact (yields_text h rest).fault_bind _

/-! ### States of the loop -/

/-- What a state reads next is, up to the end of a length, `front`; the length cannot be, which is
what the fault says. -/
inductive BadLength : Focus → List Open → Bytes → Fault → Prop where
  | text {stack : List Open} {n : Int16} (h : n < 0) :
      BadLength (.enter .string) stack (put n) (negativeText n)
  | array {stack : List Open} {kind : TagKind} {n : Int32}
      (hkind : kind = .byteArray ∨ kind = .intArray ∨ kind = .longArray) (h : n < 0) :
      BadLength (.enter kind) stack (put n) (negativeCount kind n)
  | list {stack : List Open} {n : Int32} (hroom : stack.length < maxDepth) (element : TagKind)
      (h : n < 0) : BadLength (.enter .list) stack (element.id :: put n) (negativeCount .list n)
  | endMarks {stack : List Open} {n : Int32} (hroom : stack.length < maxDepth) (h : 0 < n) :
      BadLength (.enter .list) stack (TagKind.endMark.id :: put n) (endMarks n)
  | name {entered : TagKind} {stack : List Open} {done : Option Tag} {top : Open}
      {built : Compound} {last : Option String} {kind : TagKind} {n : Int16}
      (htop : top.acceptDone done = .ok (.compound built last)) (hkind : kind ≠ .endMark)
      (h : n < 0) :
      BadLength (.climb entered done) (top :: stack) (kind.id :: put n) (negativeText n)

variable {focus : Focus} {stack : List Open} {front rest : Bytes} {s s' : Source} {fault : Fault}

theorem yields_step (h : BadLength focus stack front fault) (rest : Bytes) :
    (step focus stack).Yields front rest (.error fault) := by
  cases h with
  | text h => exact ((yields_text h rest).fault_bind _).fault_bind _
  | array hkind h =>
    rcases hkind with rfl | rfl | rfl <;>
      exact (((yields_negativeCount _ h rest).fault_bind _).fault_bind _).fault_bind _
  | list hroom element h =>
    show (lift (checkDepth stack) >>= _).Yields _ _ _
    rw [checkDepth_eq_ok hroom]
    exact (yields_listHeading element h rest).fault_bind _
  | endMarks hroom h =>
    show (lift (checkDepth stack) >>= _).Yields _ _ _
    rw [checkDepth_eq_ok hroom]
    exact (yields_endMarks h rest).fault_bind _
  | name htop hkind h =>
    rw [step_climb, htop]
    exact (yields_childHeading hkind h rest).fault_bind _

/-- The loop takes a step from one state to another, and the channel goes along. -/
def Next (a b : Focus × List Open × Source) : Prop :=
  step a.1 a.2.1 a.2.2 = (.ok (.running b.1 b.2.1), b.2.2)

theorem run_of_reaches {a b : Focus × List Open × Source} (h : Relation.ReflTransGen Next a b) :
    run a.1 a.2.1 a.2.2 = run b.1 b.2.1 b.2.2 := by
  induction h with
  | refl => rfl
  | tail _ hnext ih => exact ih.trans (run_of_running hnext)

/-- From `s` on the loop comes to a length that cannot be, behind which `rest` begins. -/
def Encounters (focus : Focus) (stack : List Open) (s : Source) (rest : Bytes) (fault : Fault) :
    Prop :=
  ∃ focus' stack' s' front,
    Relation.ReflTransGen Next (focus, stack, s) (focus', stack', s') ∧
      BadLength focus' stack' front fault ∧ s'.pending = front ++ rest

theorem run_of_encounters (h : Encounters focus stack s rest fault) :
    ∃ s', run focus stack s = (.error fault, s') ∧ s'.pending = rest := by
  obtain ⟨focus', stack', s₁, front, hreaches, hbad, hp⟩ := h
  obtain ⟨s', hstep, hrest⟩ := yields_step hbad rest s₁ hp
  exact ⟨s', (run_of_reaches hreaches).trans (run_of_fault hstep), hrest⟩

/-! ### What is told of a length -/

/-- The faults that tell a length. -/
inductive LengthFault : Fault → Prop where
  | text (n : Int) : LengthFault (.format (.nbt (.stringLength n)))
  | count (kind : TagKind) (n : Int) : LengthFault (.format (.nbt (.length kind n)))
  | endMarks (n : Nat) : LengthFault (.format (.nbt (.endElements n)))

theorem BadLength.lengthFault (h : BadLength focus stack front fault) : LengthFault fault := by
  cases h with
  | text => exact .text _
  | array => exact .count _ _
  | list => exact .count _ _
  | endMarks => exact .endMarks _
  | name => exact .text _

variable {α β : Type} {r : Reader α} {f : α → Reader β} {took took' : α → Bytes → Prop}
  {took₂ : β → Bytes → Prop} {bad bad' : Bytes → Fault → Prop}

/-- What a reader has taken off a channel when it gives a value, and when it tells a length. -/
structure Accounts (r : Reader α) (took : α → Bytes → Prop) (bad : Bytes → Fault → Prop) :
    Prop where
  value {s s' : Source} {a : α} (h : r s = (.ok a, s')) :
    ∃ front, s.pending = front ++ s'.pending ∧ took a front
  fault {s s' : Source} {fault : Fault} (h : r s = (.error fault, s'))
    (hlength : LengthFault fault) : ∃ front, s.pending = front ++ s'.pending ∧ bad front fault

/-- A reader that tells no length. -/
abbrev Silent (r : Reader α) (took : α → Bytes → Prop) : Prop :=
  Accounts r took fun _ _ => False

theorem accounts_pure {a : α} (h : took a []) : Accounts (pure a) took bad where
  value hr := by
    obtain ⟨ha, rfl⟩ := Prod.mk.inj hr
    exact ⟨[], rfl, Except.ok.inj ha ▸ h⟩
  fault hr := absurd (congrArg Prod.fst hr) nofun

theorem accounts_fail (h : LengthFault fault → bad [] fault) :
    Accounts (Reader.fail fault : Reader α) took bad where
  value hr := absurd (congrArg Prod.fst hr) nofun
  fault hr hlength := by
    obtain ⟨hfault, rfl⟩ := Prod.mk.inj hr
    obtain rfl := Except.error.inj hfault
    exact ⟨[], rfl, h hlength⟩

theorem accounts_lift {x : Except Fault α} (hok : ∀ a, x = .ok a → took a [])
    (herror : ∀ fault, x = .error fault → ¬ LengthFault fault) : Accounts (lift x) took bad := by
  rcases x with fault | a
  · exact accounts_fail fun h => absurd h (herror fault rfl)
  · exact accounts_pure (hok a rfl)

theorem Accounts.bind (hr : Accounts r took bad)
    (hf : ∀ a front, took a front → Accounts (f a) (fun b next => took₂ b (front ++ next))
      fun next fault => bad' (front ++ next) fault)
    (hbad : ∀ front fault, bad front fault → bad' front fault) : Accounts (r >>= f) took₂ bad' where
  value h := by
    obtain ⟨a, s₁, h₁, h₂⟩ := bind_eq_ok h
    obtain ⟨front, hp, hfront⟩ := hr.value h₁
    obtain ⟨next, hp₁, hnext⟩ := (hf a front hfront).value h₂
    exact ⟨front ++ next, by rw [hp, hp₁, List.append_assoc], hnext⟩
  fault h hlength := by
    rcases bind_eq_error h with h₁ | ⟨a, s₁, h₁, h₂⟩
    · obtain ⟨front, hp, hfront⟩ := hr.fault h₁ hlength
      exact ⟨front, hp, hbad front _ hfront⟩
    · obtain ⟨front, hp, hfront⟩ := hr.value h₁
      obtain ⟨next, hp₁, hnext⟩ := (hf a front hfront).fault h₂ hlength
      exact ⟨front ++ next, by rw [hp, hp₁, List.append_assoc], hnext⟩

theorem Accounts.mono (hr : Accounts r took bad) (htook : ∀ a front, took a front → took' a front)
    (hbad : ∀ front fault, bad front fault → bad' front fault) : Accounts r took' bad' where
  value h :=
    have ⟨front, hp, hfront⟩ := hr.value h
    ⟨front, hp, htook _ front hfront⟩
  fault h hlength :=
    have ⟨front, hp, hfront⟩ := hr.fault h hlength
    ⟨front, hp, hbad front _ hfront⟩

/-- A reader that only goes on with the value of one before tells no more lengths. -/
theorem Accounts.map (hr : Accounts r took bad) (f : α → β) :
    Accounts (r >>= fun a => pure (f a)) (fun _ _ => True) bad :=
  hr.bind (fun _ _ _ => accounts_pure trivial) fun _ _ => id

theorem Silent.accounts (hr : Silent r took) : Accounts r took bad :=
  hr.mono (fun _ _ => id) fun _ _ => False.elim

/-- Behind a reader that tells no length, it is for the rest to tell one. -/
theorem Silent.bind (hr : Silent r took)
    (hf : ∀ a front, took a front → Accounts (f a) (fun b next => took₂ b (front ++ next))
      fun next fault => bad (front ++ next) fault) : Accounts (r >>= f) took₂ bad :=
  Accounts.bind hr hf fun _ _ => False.elim

/-- A channel that ends or fails is no matter of lengths. -/
theorem silent_exactly (n : Nat) : Silent (exactly n) fun _ _ => True where
  value {s s' _} h := by
    obtain ⟨-, -, hp, -⟩ := Source.readFull_eq_ok h
    exact ⟨s.pending.take n, by rw [hp, List.take_append_drop], trivial⟩
  fault {s s' fault} h hlength := by
    obtain ⟨s₁, hread, -, -⟩ := s.readFull_eq n
    rw [exactly, hread] at h
    split_ifs at h
    · simp at h
    all_goals
      obtain rfl := Except.error.inj (Prod.mk.inj h).1
      cases hlength

section Values

variable [FixedWidth α] (hrefusal : ∀ bytes, ¬ LengthFault (.format (FixedWidth.refusal α bytes)))

include hrefusal

theorem not_lengthFault_of_take {bytes : Bytes} (h : FixedWidth.take α bytes = .error fault) :
    ¬ LengthFault fault := by
  unfold FixedWidth.take at h
  split at h
  · split at h
    · contradiction
    · exact Except.error.inj h ▸ hrefusal bytes
  · exact Except.error.inj h ▸ hrefusal bytes

theorem not_lengthFault_of_takeMany {n : Nat} {acc : List α} {bytes : Bytes}
    (h : FixedWidth.takeMany α acc n bytes = .error fault) : ¬ LengthFault fault := by
  induction n generalizing acc bytes with
  | zero => contradiction
  | succ n ih =>
    rw [FixedWidth.takeMany] at h
    dsimp only at h
    rcases hfirst : FixedWidth.take α (bytes.splitAt (FixedWidth.size α)).1 with fault' | v <;>
      rw [hfirst] at h
    · obtain rfl := Except.error.inj h
      exact not_lengthFault_of_take hrefusal hfirst
    · exact ih h

theorem silent_value [FixedWidth.Canonical α] :
    Silent (value α) fun v front => front = put v where
  value {_ _ v} h := ⟨put v, pending_of_value h, rfl⟩
  fault :=
    have hsilent : Silent (value α) fun _ _ => True :=
      (silent_exactly _).bind fun _ _ _ => accounts_lift (fun _ _ => trivial)
        fun _ => not_lengthFault_of_take hrefusal
    hsilent.fault

end Values

theorem not_lengthFault_width (kind : String) (size n : Nat) :
    ¬ LengthFault (.format (.width kind size n)) := by
  intro h
  cases h

/-! ### Parts that tell lengths -/

theorem silent_kind : Silent Read.kind fun kind front => front = [kind.id] := by
  have hvalue := silent_value (α := UInt8) fun _ => not_lengthFault_width _ _ _
  refine hvalue.bind fun b front hfront => ?_
  refine accounts_lift (fun kind hkind => ?_) fun fault hfault hlength => ?_
  · rcases hid : TagKind.ofId? b with _ | kind' <;> rw [TagKind.ofByte, hid] at hkind
    · contradiction
    · obtain rfl := Except.ok.inj hkind
      have hb : b = kind'.id := by
        rw [← id_of_all hid, UInt8.ofNat_toNat]
      rw [hfront, List.append_nil, hb]
      cases kind' <;> rfl
  · rcases hid : TagKind.ofId? b with _ | kind' <;> rw [TagKind.ofByte, hid] at hfault
    · obtain rfl := Except.error.inj hfault
      cases hlength
    · contradiction

theorem accounts_text : Accounts text (fun _ _ => True) fun front fault =>
    ∃ n : Int16, n < 0 ∧ front = put n ∧ fault = negativeText n := by
  have hvalue := silent_value (α := Int16) fun _ => not_lengthFault_width _ _ _
  refine hvalue.bind fun n front hfront => ?_
  subst hfront
  by_cases hn : n < 0
  · rw [if_pos hn]
    exact accounts_fail fun _ => ⟨n, hn, List.append_nil _, rfl⟩
  · rw [if_neg hn]
    refine (silent_exactly _).bind fun bytes _ _ => ?_
    refine accounts_lift (fun _ _ => trivial) fun fault hfault hlength => ?_
    unfold decodeText at hfault
    split at hfault
    · contradiction
    · obtain rfl := Except.error.inj hfault
      cases hlength

theorem accounts_count (kind : TagKind) : Accounts (count kind)
    (fun m front => ∃ n : Int32, ¬ n < 0 ∧ m = n.toInt.toNat ∧ front = put n)
    fun front fault => ∃ n : Int32, n < 0 ∧ front = put n ∧ fault = negativeCount kind n := by
  have hvalue := silent_value (α := Int32) fun _ => not_lengthFault_width _ _ _
  refine hvalue.bind fun n front hfront => ?_
  subst hfront
  by_cases hn : n < 0
  · rw [if_pos hn]
    exact accounts_fail fun _ => ⟨n, hn, List.append_nil _, rfl⟩
  · rw [if_neg hn]
    exact accounts_pure ⟨n, hn, rfl, List.append_nil _⟩

theorem accounts_array [FixedWidth α] (kind : TagKind)
    (hrefusal : ∀ bytes, ¬ LengthFault (.format (FixedWidth.refusal α bytes))) :
    Accounts (array α kind) (fun _ _ => True) fun front fault =>
      ∃ n : Int32, n < 0 ∧ front = put n ∧ fault = negativeCount kind n := by
  refine (accounts_count kind).bind (fun n front _ => ?_) fun _ _ => id
  have hbody : Silent (exactly (FixedWidth.size α * n) >>= fun bytes =>
      lift (FixedWidth.takeMany α [] n bytes)) fun _ _ => True :=
    (silent_exactly _).bind fun bytes _ _ =>
      accounts_lift (fun _ _ => trivial) fun _ => not_lengthFault_of_takeMany hrefusal
  exact hbody.accounts

theorem accounts_listHeading : Accounts listHeading (fun _ _ => True) fun front fault =>
    (∃ (element : TagKind) (n : Int32),
      n < 0 ∧ front = element.id :: put n ∧ fault = negativeCount .list n) ∨
    ∃ n : Int32, 0 < n ∧ front = TagKind.endMark.id :: put n ∧ fault = endMarks n := by
  refine silent_kind.bind fun element front hfront => ?_
  subst hfront
  refine (accounts_count .list).bind (fun m front hm => ?_) fun front fault hbad => ?_
  · obtain ⟨n, hn, rfl, rfl⟩ := hm
    by_cases hend : element = .endMark ∧ 0 < n.toInt.toNat
    · rw [if_pos hend]
      obtain ⟨rfl, hpos⟩ := hend
      have hn : 0 < n := by
        rw [Int32.lt_iff_toInt_lt]
        simp
        omega
      exact accounts_fail fun _ => .inr ⟨n, hn, by simp, rfl⟩
    · rw [if_neg hend]
      exact accounts_pure trivial
  · obtain ⟨n, hn, rfl, rfl⟩ := hbad
    exact .inl ⟨element, n, hn, rfl, rfl⟩

theorem accounts_childHeading : Accounts childHeading (fun _ _ => True) fun front fault =>
    ∃ (kind : TagKind) (n : Int16),
      kind ≠ .endMark ∧ n < 0 ∧ front = kind.id :: put n ∧ fault = negativeText n := by
  refine silent_kind.bind fun kind front hfront => ?_
  subst hfront
  by_cases hend : kind = .endMark
  · rw [if_pos hend]
    exact accounts_pure trivial
  · rw [if_neg hend]
    refine accounts_text.bind (fun _ _ _ => accounts_pure trivial) fun front fault hbad => ?_
    obtain ⟨n, hn, rfl, rfl⟩ := hbad
    exact ⟨kind, n, hend, hn, rfl, rfl⟩

/-! ### Steps and runs -/

theorem silent_checkDepth (stack : List Open) : Silent (lift (checkDepth stack))
    fun _ front => front = [] ∧ stack.length < maxDepth := by
  unfold checkDepth
  by_cases hroom : stack.length < maxDepth
  · rw [if_pos hroom]
    exact accounts_pure ⟨rfl, hroom⟩
  · rw [if_neg hroom]
    refine accounts_fail fun h => ?_
    cases h

theorem accounts_scalar {kind : TagKind} (hlist : kind ≠ .list) (hcompound : kind ≠ .compound)
    (stack : List Open) :
    Accounts (scalar kind) (fun _ _ => True) (BadLength (.enter kind) stack) := by
  have hnumber {α : Type} [FixedWidth α] [FixedWidth.Canonical α]
      (hrefusal : ∀ bytes, ¬ LengthFault (.format (FixedWidth.refusal α bytes))) (make : α → Tag)
      (bad : Bytes → Fault → Prop) : Accounts (do return make (← value α)) (fun _ _ => True) bad :=
    (silent_value hrefusal).accounts.map make
  have harray {α : Type} [FixedWidth α] (kind : TagKind)
      (hkind : kind = .byteArray ∨ kind = .intArray ∨ kind = .longArray)
      (hrefusal : ∀ bytes, ¬ LengthFault (.format (FixedWidth.refusal α bytes)))
      (make : List α → Tag) : Accounts (do return make (← array α kind)) (fun _ _ => True)
        (BadLength (.enter kind) stack) := by
    refine ((accounts_array kind hrefusal).map make).mono (fun _ _ => id) fun front fault hbad => ?_
    obtain ⟨n, hn, rfl, rfl⟩ := hbad
    exact .array hkind hn
  cases kind with
  | endMark => exact accounts_pure trivial
  | byte => exact hnumber (fun _ => not_lengthFault_width _ _ _) Tag.byte _
  | short => exact hnumber (fun _ => not_lengthFault_width _ _ _) Tag.short _
  | int => exact hnumber (fun _ => not_lengthFault_width _ _ _) Tag.int _
  | long => exact hnumber (fun _ => not_lengthFault_width _ _ _) Tag.long _
  | float => exact hnumber (fun _ => not_lengthFault_width _ _ _) Tag.float _
  | double => exact hnumber (fun _ => not_lengthFault_width _ _ _) Tag.double _
  | byteArray =>
    exact harray .byteArray (by simp) (fun _ => not_lengthFault_width _ _ _) Tag.byteArray
  | intArray =>
    exact harray .intArray (by simp) (fun _ => not_lengthFault_width _ _ _) Tag.intArray
  | longArray =>
    exact harray .longArray (by simp) (fun _ => not_lengthFault_width _ _ _) Tag.longArray
  | string =>
    refine (accounts_text.map Tag.string).mono (fun _ _ => id) fun front fault hbad => ?_
    obtain ⟨n, hn, rfl, rfl⟩ := hbad
    exact .text hn
  | list => contradiction
  | compound => contradiction

theorem accounts_enter (stack : List Open) (kind : TagKind) :
    Accounts (enter stack kind) (fun _ _ => True) (BadLength (.enter kind) stack) := by
  by_cases hlist : kind = .list
  · subst hlist
    refine (silent_checkDepth stack).bind fun _ front hroom => ?_
    obtain ⟨rfl, hroom⟩ := hroom
    refine accounts_listHeading.bind (fun heading _ _ => accounts_pure trivial) ?_
    intro front fault hbad
    rcases hbad with ⟨element, n, hn, rfl, rfl⟩ | ⟨n, hn, rfl, rfl⟩
    · exact .list hroom element hn
    · exact .endMarks hroom hn
  by_cases hcompound : kind = .compound
  · subst hcompound
    exact (silent_checkDepth stack).accounts.map _
  · rw [enter_scalar stack hlist hcompound]
    exact (accounts_scalar hlist hcompound stack).map _

/-- What is wrong with a container is no matter of lengths. -/
theorem not_lengthFault_of_pushAll {ts : List Tag} {l : TagList} (h : l.pushAll ts = .error fault) :
    ¬ LengthFault fault := by
  induction ts generalizing l with
  | nil => contradiction
  | cons t ts ih =>
    change (l.push t >>= fun l => l.pushAll ts) = .error fault at h
    rcases hpush : l.push t with fault' | pushed <;> rw [hpush] at h
    · obtain rfl := Except.error.inj h
      intro hlength
      unfold TagList.push at hpush
      split_ifs at hpush <;> obtain rfl := Except.error.inj hpush <;> cases hlength
    · exact ih h

theorem not_lengthFault_of_accept {done : Option Tag} {top : Open}
    (h : top.acceptDone done = .error fault) : ¬ LengthFault fault := by
  intro hlength
  rcases done with _ | t
  · contradiction
  rcases top with ⟨element, left, items⟩ | ⟨built, _ | name⟩
  · contradiction
  · obtain rfl := Except.error.inj h
    cases hlength
  · change (built.insert name t).map _ = _ at h
    rcases hinsert : built.insert name t with fault' | built' <;> rw [hinsert] at h
    · obtain rfl := Except.error.inj h
      unfold Compound.insert at hinsert
      split_ifs at hinsert <;> obtain rfl := Except.error.inj hinsert <;> cases hlength
    · contradiction

theorem accounts_resume (entered : TagKind) (stack : List Open) (o : Open) :
    Accounts (resume entered stack o) (fun _ _ => True) fun front fault =>
      ∃ (built : Compound) (last : Option String) (kind : TagKind) (n : Int16),
        o = .compound built last ∧ kind ≠ .endMark ∧ n < 0 ∧ front = kind.id :: put n ∧
          fault = negativeText n := by
  cases o with
  | list element left items =>
    cases left with
    | zero =>
      have hclose : Silent (lift (closeList element items)) fun _ _ => True := by
        refine accounts_lift (fun _ _ => trivial) fun fault hfault => ?_
        unfold closeList at hfault
        rcases hpush : (TagList.ofKind element).pushAll items.reverse with fault' | l <;>
          rw [hpush] at hfault
        · obtain rfl := Except.error.inj hfault
          exact not_lengthFault_of_pushAll hpush
        · contradiction
      exact hclose.accounts.map _
    | succ left => exact accounts_pure trivial
  | compound built last =>
    refine accounts_childHeading.bind (fun child _ _ => ?_) fun front fault hbad => ?_
    · cases child <;> exact accounts_pure trivial
    · obtain ⟨kind, n, h⟩ := hbad
      exact ⟨built, last, kind, n, rfl, h⟩

/-- What a step reads when it tells a length is a length that cannot be. -/
theorem accounts_step (focus : Focus) (stack : List Open) :
    Accounts (step focus stack) (fun _ _ => True) (BadLength focus stack) := by
  cases focus with
  | enter kind => exact accounts_enter stack kind
  | climb entered done =>
    rcases stack with _ | ⟨top, stack⟩
    · cases done with
      | none =>
        refine accounts_fail fun h => ?_
        cases h
      | some t => exact accounts_pure trivial
    · have haccept : Silent (lift (top.acceptDone done))
          fun o front => front = [] ∧ top.acceptDone done = .ok o :=
        accounts_lift (fun _ ho => ⟨rfl, ho⟩) fun _ => not_lengthFault_of_accept
      rw [step_climb]
      refine haccept.bind fun o front ho => ?_
      obtain ⟨rfl, ho⟩ := ho
      refine (accounts_resume entered stack o).mono (fun _ _ => id) fun front fault hbad => ?_
      obtain ⟨built, last, kind, n, rfl, hkind, hn, rfl, rfl⟩ := hbad
      exact .name ho hkind hn

/-- By induction on the run. -/
theorem encounters_of_run (h : run focus stack s = (.error fault, s'))
    (hlength : LengthFault fault) : Encounters focus stack s s'.pending fault := by
  fun_induction run focus stack s with
  | case1 focus stack s fault' s₁ hstep =>
    obtain ⟨hfault, rfl⟩ := Prod.mk.inj h
    obtain rfl := Except.error.inj hfault
    obtain ⟨front, hp, hbad⟩ := (accounts_step focus stack).fault hstep hlength
    exact ⟨focus, stack, s, front, .refl, hbad, hp⟩
  | case2 => exact absurd (congrArg Prod.fst h) nofun
  | case3 focus stack s focus' stack' s₁ hstep ih =>
    obtain ⟨focus₂, stack₂, s₂, front, hreaches, hrest⟩ := ih h
    have hnext : Next (focus, stack, s) (focus', stack', s₁) := hstep
    exact ⟨focus₂, stack₂, s₂, front, .head hnext hreaches, hrest⟩

/-- The loop stops behind the lengths that cannot be, and behind no others. -/
theorem encounters_iff : Encounters focus stack s rest fault ↔
    LengthFault fault ∧ ∃ s', run focus stack s = (.error fault, s') ∧ s'.pending = rest := by
  constructor
  · intro h
    have ⟨_, _, _, _, _, hbad, _⟩ := h
    exact ⟨hbad.lengthFault, run_of_encounters h⟩
  · rintro ⟨hlength, s', hrun, rfl⟩
    exact encounters_of_run hrun hlength

/-! ### Roots -/

/-- The name of a root, if its header has one. -/
def rootName : Header → Reader (Option String)
  | .named => do
    let name ← text
    return if name.isEmpty then none else some name
  | .unnamed => return none

theorem root_eq (header : Header) : root header = Read.kind >>= fun kind =>
    if kind = .endMark then pure ⟨none, .endMark⟩
    else rootName header >>= fun name => payload kind >>= fun tag => pure ⟨name, tag⟩ := by
  cases header with
  | unnamed => rfl
  | named =>
    rw [rootName]
    simp only [bind_assoc]
    rfl

/-- From `s` on a root comes to a length that cannot be, behind which `rest` begins: that of its
name, or one inside its payload. -/
inductive Meets (header : Header) (s : Source) (rest : Bytes) : Fault → Prop where
  | name {kind : TagKind} {n : Int16} (hheader : header = .named) (hkind : kind ≠ .endMark)
      (h : n < 0) (hp : s.pending = kind.id :: put n ++ rest) : Meets header s rest (negativeText n)
  | inside {kind : TagKind} {name : Option String} {s₁ s₂ : Source} {fault : Fault}
      (hread : Read.kind s = (.ok kind, s₁)) (hkind : kind ≠ .endMark)
      (hname : rootName header s₁ = (.ok name, s₂))
      (h : Encounters (.enter kind) [] s₂ rest fault) : Meets header s rest fault

theorem root_of_kind {header : Header} {kind : TagKind} {s₁ : Source}
    (hread : Read.kind s = (.ok kind, s₁)) (hkind : kind ≠ .endMark) : root header s =
      (rootName header >>= fun name => payload kind >>= fun tag => pure ⟨name, tag⟩) s₁ := by
  rw [root_eq, bind_of_ok hread, if_neg hkind]

theorem rootName_fault {header : Header} (h : rootName header s = (.error fault, s')) :
    header = .named ∧ text s = (.error fault, s') := by
  cases header with
  | unnamed => exact absurd (congrArg Prod.fst h) nofun
  | named => exact ⟨rfl, of_map_error h⟩

theorem root_of_meets {header : Header} (h : Meets header s rest fault) :
    ∃ s', root header s = (.error fault, s') ∧ s'.pending = rest := by
  cases h with
  | @name kind n hheader hkind h hp =>
    subst hheader
    obtain ⟨s₁, hread, hp₁⟩ := yields_kind kind (put n ++ rest) s hp
    obtain ⟨s', htext, hrest⟩ := yields_text h rest s₁ hp₁
    have hname : rootName .named s₁ = (.error (negativeText n), s') := bind_of_error htext
    exact ⟨s', (root_of_kind hread hkind).trans (bind_of_error hname), hrest⟩
  | inside hread hkind hname h =>
    obtain ⟨s', hrun, hrest⟩ := run_of_encounters h
    refine ⟨s', ?_, hrest⟩
    rw [root_of_kind hread hkind, bind_of_ok hname]
    exact bind_of_error hrun

theorem meets_of_root {header : Header} (h : root header s = (.error fault, s'))
    (hlength : LengthFault fault) : Meets header s s'.pending fault := by
  rw [root_eq] at h
  rcases bind_eq_error h with hread | ⟨kind, s₁, hread, h⟩
  · obtain ⟨_, _, hsilent⟩ := silent_kind.fault hread hlength
    exact hsilent.elim
  by_cases hkind : kind = .endMark
  · rw [if_pos hkind] at h
    exact absurd (congrArg Prod.fst h) nofun
  rw [if_neg hkind] at h
  rcases bind_eq_error h with hname | ⟨name, s₂, hname, h⟩
  · obtain ⟨hheader, htext⟩ := rootName_fault hname
    obtain ⟨front, hp, rfl⟩ := silent_kind.value hread
    obtain ⟨_, hp₁, n, hn, rfl, rfl⟩ := accounts_text.fault htext hlength
    exact .name hheader hkind hn (by rw [hp, hp₁]; rfl)
  · have hrun : payload kind s₂ = (.error fault, s') := of_map_error h
    exact .inside hread hkind hname (encounters_of_run hrun hlength)

theorem Meets.lengthFault {header : Header} (h : Meets header s rest fault) :
    LengthFault fault := by
  cases h with
  | name => exact .text _
  | inside _ _ _ h => exact (encounters_iff.mp h).1

/-- A root is refused behind the lengths that cannot be, and tells a length nowhere else. -/
theorem meets_iff {header : Header} : Meets header s rest fault ↔
    LengthFault fault ∧ ∃ s', root header s = (.error fault, s') ∧ s'.pending = rest := by
  refine ⟨fun h => ⟨h.lengthFault, root_of_meets h⟩, ?_⟩
  rintro ⟨hlength, s', hroot, rfl⟩
  exact meets_of_root hroot hlength

end Read

end MinecraftWire.Nbt
