import MinecraftWire.Nbt.Container
import MinecraftWire.Reader

/-! Reading the binary form of NBT. Lists and compounds whose children are still to come are kept on
a stack, innermost first, so that nesting takes no room beyond it. -/

namespace MinecraftWire.Nbt

/-- What stands before the payload of a root besides its type byte. -/
inductive Header where
  | named | unnamed
  deriving DecidableEq, Repr

/-- The most lists and compounds that may be open at once. -/
def maxDepth : Nat := 512

/-! ### Parts -/

namespace Read

def kind : Reader TagKind := do
  Reader.lift (TagKind.ofByte (← Reader.value UInt8))

def decodeText (bytes : Bytes) : Except Fault String :=
  match Utf8.decode bytes with
  | .ok s => .ok s
  | .error fault => .error (.format (.utf8 fault))

/-- A text or name: UTF-8 behind its length. -/
def text : Reader String := do
  let length ← Reader.value Int16
  if length < 0 then Reader.malformed (.nbt (.stringLength length.toInt))
  else
    let bytes ← Reader.exactly length.toInt.toNat
    Reader.lift (decodeText bytes)

def count (kind : TagKind) : Reader Nat := do
  let length ← Reader.value Int32
  if length < 0 then Reader.malformed (.nbt (.length kind length.toInt))
  else return length.toInt.toNat

def array (α : Type) [FixedWidth α] (kind : TagKind) : Reader (List α) := do
  let n ← count kind
  let bytes ← Reader.exactly (FixedWidth.size α * n)
  Reader.lift (FixedWidth.takeMany α [] n bytes)

/-- The payload of a tag that holds no others. -/
def scalar : TagKind → Reader Tag
  | .endMark => return .endMark
  | .byte => return .byte (← Reader.value Int8)
  | .short => return .short (← Reader.value Int16)
  | .int => return .int (← Reader.value Int32)
  | .long => return .long (← Reader.value Int64)
  | .float => return .float (← Reader.value Float32Bits)
  | .double => return .double (← Reader.value Float64Bits)
  | .byteArray => return .byteArray (← array Int8 .byteArray)
  | .string => return .string (← text)
  | .intArray => return .intArray (← array Int32 .intArray)
  | .longArray => return .longArray (← array Int64 .longArray)
  | kind => Reader.malformed (.nbt (.notScalar kind))

/-- The element kind and number of elements of a list. -/
def listHeading : Reader (TagKind × Nat) := do
  let element ← kind
  let n ← count .list
  if element = .endMark ∧ 0 < n then Reader.malformed (.nbt (.endElements n))
  else return (element, n)

/-- The kind and name of a compound's next child; `none` at its end. -/
def childHeading : Reader (Option (TagKind × String)) := do
  let kind ← kind
  if kind = .endMark then return none
  else
    let name ← text
    return some (kind, name)

/-! ### Open lists and compounds -/

inductive Open where
  /-- A list, the number of elements to come, and those read, last first. -/
  | list (element : TagKind) (left : Nat) (items : List Tag)
  /-- A compound and the name of the child that is being read. -/
  | compound (built : Compound) (name : Option String)

/-- Attach a child that is complete. -/
def Open.accept (t : Tag) : Open → Except Fault Open
  | .list element left items => .ok (.list element left (t :: items))
  | .compound built (some name) => (built.insert name t).map (.compound · none)
  | .compound _ none => .error (.format (.nbt .namelessChild))

def Open.acceptDone (done : Option Tag) (o : Open) : Except Fault Open :=
  match done with
  | some t => o.accept t
  | none => .ok o

def closeList (element : TagKind) (items : List Tag) : Except Fault Tag :=
  ((TagList.ofKind element).pushAll items.reverse).map TagList.toTag

/-- What is done next: read the payload of a tag, or climb, with a tag that is complete or without,
to the innermost open container that wants another child. A climb knows the kind entered last. -/
inductive Focus where
  | enter (kind : TagKind)
  | climb (entered : TagKind) (done : Option Tag)

inductive Step where
  | running (focus : Focus) (stack : List Open)
  | finished (t : Tag)

def checkDepth (stack : List Open) : Except Fault Unit :=
  if stack.length < maxDepth then .ok () else .error (.format (.nbt .nesting))

def enter (stack : List Open) : TagKind → Reader Step
  | .list => do
    Reader.lift (checkDepth stack)
    let (element, n) ← listHeading
    return .running (.climb .list none) (.list element n [] :: stack)
  | .compound => do
    Reader.lift (checkDepth stack)
    return .running (.climb .compound none) (.compound .empty none :: stack)
  | kind => do
    let t ← scalar kind
    return .running (.climb kind (some t)) stack

/-- Go on with a container all of whose children so far are attached. -/
def resume (entered : TagKind) (stack : List Open) : Open → Reader Step
  | .list element (left + 1) items =>
    return .running (.enter element) (.list element left items :: stack)
  | .list element 0 items => do
    let t ← Reader.lift (closeList element items)
    return .running (.climb entered (some t)) stack
  | .compound built _ => do
    match ← childHeading with
    | none => return .running (.climb entered (some built.toTag)) stack
    | some (kind, name) => return .running (.enter kind) (.compound built (some name) :: stack)

def step : Focus → List Open → Reader Step
  | .enter kind, stack => enter stack kind
  | .climb _ (some t), [] => return .finished t
  | .climb entered none, [] => Reader.malformed (.nbt (.notScalar entered))
  | .climb entered done, top :: stack => do
    let o ← Reader.lift (top.acceptDone done)
    resume entered stack o

theorem checkDepth_eq_ok {stack : List Open} (h : stack.length < maxDepth) :
    checkDepth stack = .ok () := by
  rw [checkDepth, if_pos h]

theorem checkDepth_eq_error {stack : List Open} (h : ¬ stack.length < maxDepth) :
    checkDepth stack = .error (.format (.nbt .nesting)) := by
  rw [checkDepth, if_neg h]

theorem enter_scalar {kind : TagKind} (stack : List Open) (hlist : kind ≠ .list)
    (hcompound : kind ≠ .compound) : enter stack kind =
      scalar kind >>= fun t => pure (.running (.climb kind (some t)) stack) := by
  cases kind with
  | list => exact absurd rfl hlist
  | compound => exact absurd rfl hcompound
  | _ => rfl

theorem step_climb (entered : TagKind) (done : Option Tag) (top : Open) (stack : List Open) :
    step (.climb entered done) (top :: stack) =
      Reader.lift (top.acceptDone done) >>= resume entered stack := by
  cases done <;> rfl

/-! ### Every step reads on or comes nearer to the next byte -/

theorem consumes_kind : kind.Consumes :=
  (Reader.consumes_value _ (by decide)).bind fun _ => Reader.shrinks_lift _

theorem consumes_text : text.Consumes := by
  refine (Reader.consumes_value _ (by decide)).bind fun length => ?_
  split
  · exact Reader.shrinks_fail _
  · exact (Reader.shrinks_exactly _).bind fun _ => Reader.shrinks_lift _

theorem consumes_count (kind : TagKind) : (count kind).Consumes := by
  refine (Reader.consumes_value _ (by decide)).bind fun length => ?_
  split
  · exact Reader.shrinks_fail _
  · exact Reader.shrinks_pure _

theorem consumes_array (α : Type) [FixedWidth α] (kind : TagKind) : (array α kind).Consumes :=
  (consumes_count kind).bind fun _ => (Reader.shrinks_exactly _).bind fun _ => Reader.shrinks_lift _

/-- There is no payload without bytes but that of an end mark. -/
theorem consumes_scalar {kind : TagKind} (hkind : kind ≠ .endMark) : (scalar kind).Consumes := by
  cases kind with
  | endMark => exact absurd rfl hkind
  | string => exact consumes_text.bind fun _ => Reader.shrinks_pure _
  | byteArray => exact (consumes_array Int8 _).bind fun _ => Reader.shrinks_pure _
  | intArray => exact (consumes_array Int32 _).bind fun _ => Reader.shrinks_pure _
  | longArray => exact (consumes_array Int64 _).bind fun _ => Reader.shrinks_pure _
  | list => exact fun s t s' h => absurd (congrArg Prod.fst h) nofun
  | compound => exact fun s t s' h => absurd (congrArg Prod.fst h) nofun
  | _ => exact (Reader.consumes_value _ (by decide)).bind fun _ => Reader.shrinks_pure _

theorem shrinks_scalar (kind : TagKind) : (scalar kind).Shrinks := by
  by_cases hkind : kind = .endMark
  · exact hkind ▸ Reader.shrinks_pure _
  · exact (consumes_scalar hkind).shrinks

theorem consumes_listHeading : listHeading.Consumes := by
  refine consumes_kind.bind fun element => (consumes_count _).shrinks.bind fun n => ?_
  split
  · exact Reader.shrinks_fail _
  · exact Reader.shrinks_pure _

theorem consumes_childHeading : childHeading.Consumes := by
  refine consumes_kind.bind fun kind => ?_
  split
  · exact Reader.shrinks_pure _
  · exact consumes_text.shrinks.bind fun _ => Reader.shrinks_pure _

def Open.weight : Open → Nat
  | .list _ left _ => 3 * left + 1
  | .compound _ _ => 1

def Focus.weight : Focus → Nat
  | .enter _ => 2
  | .climb .. => 0

/-- How many steps may pass before the next byte is read. -/
def weight (focus : Focus) (stack : List Open) : Nat :=
  focus.weight + (stack.map Open.weight).sum

/-- Less is left to read, or as much is left and the next byte is nearer. -/
def Progress (s s' : Source) (w w' : Nat) : Prop :=
  s'.pending.length < s.pending.length ∨ (s'.pending.length ≤ s.pending.length ∧ w' < w)

theorem Progress.lex {s s' : Source} {w w' : Nat} (h : Progress s s' w w') :
    Prod.Lex (· < ·) (· < ·) (s'.pending.length, w') (s.pending.length, w) := by
  rcases h with h | ⟨h, hw⟩
  · exact .left _ _ h
  · rcases Nat.lt_or_eq_of_le h with h | h
    · exact .left _ _ h
    · rw [h]; exact .right _ hw

theorem lift_eq_ok {α : Type} {x : Except Fault α} {a : α} {s s' : Source}
    (h : Reader.lift x s = (.ok a, s')) : x = .ok a ∧ s' = s := by
  cases x with
  | error fault => simp [Reader.lift, Reader.fail] at h
  | ok b => simp only [Reader.lift, Reader.pure, Prod.mk.injEq, Except.ok.injEq] at h; simp [h]

theorem pure_eq_ok {α : Type} {a b : α} {s s' : Source}
    (h : (pure a : Reader α) s = (.ok b, s')) : a = b ∧ s' = s := by
  change (Except.ok a, s) = (Except.ok b, s') at h
  simp only [Prod.mk.injEq, Except.ok.injEq] at h
  exact ⟨h.1, h.2.symm⟩

theorem progress_enter {stack stack' : List Open} {kind : TagKind} {focus : Focus} {s s' : Source}
    (h : enter stack kind s = (.ok (.running focus stack'), s')) :
    Progress s s' (weight (.enter kind) stack) (weight focus stack') := by
  unfold enter at h
  split at h
  · obtain ⟨_, s₁, h₁, h⟩ := Reader.bind_eq_ok h
    obtain ⟨⟨element, n⟩, s₂, h₂, h⟩ := Reader.bind_eq_ok h
    have hp := (pure_eq_ok h).2
    have := consumes_listHeading h₂
    have := (lift_eq_ok h₁).2
    subst_vars
    exact .inl this
  · obtain ⟨_, s₁, h₁, h⟩ := Reader.bind_eq_ok h
    obtain ⟨hf, rfl⟩ := pure_eq_ok h
    have := (lift_eq_ok h₁).2
    subst this
    simp only [Step.running.injEq] at hf
    refine .inr ⟨Nat.le_refl _, ?_⟩
    simp [← hf.1, ← hf.2, weight, Focus.weight, Open.weight]
  · obtain ⟨t, s₁, h₁, h⟩ := Reader.bind_eq_ok h
    obtain ⟨hf, rfl⟩ := pure_eq_ok h
    simp only [Step.running.injEq] at hf
    refine .inr ⟨shrinks_scalar _ h₁, ?_⟩
    simp [← hf.1, ← hf.2, weight, Focus.weight]

theorem progress_resume {entered : TagKind} {stack stack' : List Open} {o : Open} {focus : Focus}
    {s s' : Source} (h : resume entered stack o s = (.ok (.running focus stack'), s')) :
    Progress s s' (o.weight + (stack.map Open.weight).sum) (weight focus stack') := by
  unfold resume at h
  split at h
  · obtain ⟨hf, rfl⟩ := pure_eq_ok h
    simp only [Step.running.injEq] at hf
    refine .inr ⟨Nat.le_refl _, ?_⟩
    simp [← hf.1, ← hf.2, weight, Focus.weight, Open.weight]
    omega
  · obtain ⟨t, s₁, h₁, h⟩ := Reader.bind_eq_ok h
    obtain ⟨hf, rfl⟩ := pure_eq_ok h
    have := (lift_eq_ok h₁).2
    subst this
    simp only [Step.running.injEq] at hf
    refine .inr ⟨Nat.le_refl _, ?_⟩
    simp [← hf.1, ← hf.2, weight, Focus.weight, Open.weight]
  · obtain ⟨child, s₁, h₁, h⟩ := Reader.bind_eq_ok h
    have := consumes_childHeading h₁
    split at h <;> rw [(pure_eq_ok h).2] <;> exact .inl this

theorem Open.weight_of_accept {t : Tag} {o o' : Open} (h : o.accept t = .ok o') :
    o'.weight = o.weight := by
  cases o with
  | list element left items =>
    simp only [Open.accept, Except.ok.injEq] at h
    simp [← h, Open.weight]
  | compound built name =>
    cases name with
    | none => simp [Open.accept] at h
    | some name =>
      simp only [Open.accept] at h
      cases hb : built.insert name t with
      | error fault => simp [hb, Except.map] at h
      | ok built' => simp only [hb, Except.map, Except.ok.injEq] at h; simp [← h, Open.weight]

theorem progress_step {focus focus' : Focus} {stack stack' : List Open} {s s' : Source}
    (h : step focus stack s = (.ok (.running focus' stack'), s')) :
    Progress s s' (weight focus stack) (weight focus' stack') := by
  unfold step at h
  split at h
  · exact progress_enter h
  · simp only [pure, Reader.pure, Prod.mk.injEq, Except.ok.injEq, reduceCtorEq, false_and] at h
  · simp [Reader.malformed, Reader.fail] at h
  · rename_i entered done top stack
    obtain ⟨o, s₁, h₁, h⟩ := Reader.bind_eq_ok h
    obtain ⟨ho, hs⟩ := lift_eq_ok h₁
    rw [hs] at h
    have hw : o.weight = top.weight := by
      cases done with
      | none => simp only [Open.acceptDone, Except.ok.injEq] at ho; rw [ho]
      | some t => exact Open.weight_of_accept ho
    have := progress_resume h
    rw [hw] at this
    simpa [weight, Focus.weight] using this

/-! ### Payloads and roots -/

/-- Take steps until a tag is finished. -/
def run (focus : Focus) (stack : List Open) (s : Source) : Except Fault Tag × Source :=
  match _h : step focus stack s with
  | (.error fault, s') => (.error fault, s')
  | (.ok (.finished t), s') => (.ok t, s')
  | (.ok (.running focus' stack'), s') => run focus' stack' s'
termination_by (s.pending.length, weight focus stack)
decreasing_by exact (progress_step _h).lex

/-- The payload of a tag of known kind. -/
def payload (kind : TagKind) : Reader Tag :=
  run (.enter kind) []

/-- A root tag. An end mark stands for no tree and has neither name nor payload; an empty name is
none. -/
def root (header : Header) : Reader Root := do
  let kind ← kind
  if kind = .endMark then return ⟨none, .endMark⟩
  else
    let name ← match header with
      | .named => do
        let name ← text
        pure (if name.isEmpty then none else some name)
      | .unnamed => pure none
    let tag ← payload kind
    return ⟨name, tag⟩

end Read

/-- The tree of which a byte string is the whole named form. -/
def Root.ofBytes (bytes : Bytes) : Except Fault Root :=
  match (Read.root .named).run bytes with
  | (.error fault, _) => .error fault
  | (.ok root, []) => .ok root
  | (.ok _, left) => .error (.format (.nbt (.trailing left.length)))

end MinecraftWire.Nbt
