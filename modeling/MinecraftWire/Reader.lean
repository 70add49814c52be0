import MinecraftWire.Channel
import MinecraftWire.FixedWidth

/-! Decoding steps. A reader takes bytes from a source and answers or fails; either way the source
stays where the reader stopped. -/

namespace MinecraftWire

def Reader (α : Type) : Type :=
  Source → Except Fault α × Source

namespace Reader

protected def pure {α : Type} (a : α) : Reader α :=
  fun s => (.ok a, s)

protected def bind {α β : Type} (r : Reader α) (f : α → Reader β) : Reader β := fun s =>
  match r s with
  | (.ok a, s') => f a s'
  | (.error fault, s') => (.error fault, s')

instance : Monad Reader where
  pure := Reader.pure
  bind := Reader.bind

def fail {α : Type} (fault : Fault) : Reader α :=
  fun s => (.error fault, s)

/-- A check that reads nothing. -/
def lift {α : Type} : Except Fault α → Reader α
  | .ok a => Reader.pure a
  | .error fault => fail fault

def malformed {α : Type} (cause : Malformation) : Reader α :=
  fail (.format cause)

/-- Read from an in-memory byte string: the outcome and the bytes left. -/
def run {α : Type} (r : Reader α) (bytes : Bytes) : Except Fault α × Bytes :=
  let (outcome, s) := r (.ofBytes bytes)
  (outcome, s.pending)

def exactly (n : Nat) : Reader Bytes :=
  Source.readFull n

def remaining : Reader Bytes :=
  Source.readAll

def value (α : Type) [FixedWidth α] : Reader α := do
  lift (FixedWidth.take α (← exactly (FixedWidth.size α)))

/-- Read groups of an integer of which `seen` have been read, at most `left` more. At the end of the
channel the fault tells all bytes of the integer. -/
def groups (bits : Nat) : (left : Nat) → (seen : Bytes) → (value : Nat) → Reader Nat
  | 0, _, _ => malformed (.varInt (.overlong bits))
  | left + 1, seen, value => fun s =>
    match s.readFull 1 with
    | (.error (.unexpectedEnd _ _), s') => (.error (.unexpectedEnd (seen.length + 1) seen), s')
    | (.error fault, s') => (.error fault, s')
    | (.ok bytes, s') =>
      match VarInt.accept bits seen.length value (bytes.headD 0) with
      | .error fault => (.error (.format (.varInt fault)), s')
      | .ok (.done n) => (.ok n, s')
      | .ok (.more n) => groups bits left (seen ++ bytes) n s'

def varInt : Reader Int32 := do
  return VarInt.int32OfNat (← groups 32 (VarInt.maxLength 32) [] 0)

def varLong : Reader Int64 := do
  return VarInt.int64OfNat (← groups 64 (VarInt.maxLength 64) [] 0)

/-- A presence flag and, if it is set, a value. -/
def optional {α : Type} (r : Reader α) : Reader (Option α) := do
  if ← value Bool then return some (← r) else return none

/-- `n` values in a row; `acc` holds earlier ones, last first. -/
def timesFrom {α : Type} (r : Reader α) (acc : List α) : Nat → Reader (List α)
  | 0 => Reader.pure acc.reverse
  | n + 1 => Reader.bind r fun a => timesFrom r (a :: acc) n

def times {α : Type} (n : Nat) (r : Reader α) : Reader (List α) :=
  timesFrom r [] n

/-! ### What a reader leaves -/

/-- Success leaves no more than there was. -/
def Shrinks {α : Type} (r : Reader α) : Prop :=
  ∀ ⦃s a s'⦄, r s = (.ok a, s') → s'.pending.length ≤ s.pending.length

/-- Success leaves less than there was. -/
def Consumes {α : Type} (r : Reader α) : Prop :=
  ∀ ⦃s a s'⦄, r s = (.ok a, s') → s'.pending.length < s.pending.length

theorem bind_eq_ok {α β : Type} {r : Reader α} {f : α → Reader β} {s s' : Source} {b : β}
    (h : (r >>= f) s = (.ok b, s')) : ∃ a s₁, r s = (.ok a, s₁) ∧ f a s₁ = (.ok b, s') := by
  change Reader.bind r f s = _ at h
  unfold Reader.bind at h
  split at h
  · exact ⟨_, _, by assumption, h⟩
  · simp at h

theorem Consumes.shrinks {α : Type} {r : Reader α} (h : r.Consumes) : r.Shrinks :=
  fun _ _ _ hr => Nat.le_of_lt (h hr)

theorem shrinks_pure {α : Type} (a : α) : Shrinks (pure a) := by
  intro s a' s' h
  obtain ⟨-, rfl⟩ := Prod.mk.inj h
  exact Nat.le_refl _

theorem shrinks_fail {α : Type} (fault : Fault) : Shrinks (fail fault : Reader α) := by
  intro s a s' h
  simp [fail] at h

theorem shrinks_lift {α : Type} (x : Except Fault α) : Shrinks (lift x) := by
  cases x with
  | error fault => exact shrinks_fail fault
  | ok a => exact shrinks_pure a

theorem Shrinks.bind {α β : Type} {r : Reader α} {f : α → Reader β} (hr : r.Shrinks)
    (hf : ∀ a, (f a).Shrinks) : (r >>= f).Shrinks := by
  intro s b s' h
  obtain ⟨a, s₁, h₁, h₂⟩ := bind_eq_ok h
  exact Nat.le_trans (hf a h₂) (hr h₁)

theorem Consumes.bind {α β : Type} {r : Reader α} {f : α → Reader β} (hr : r.Consumes)
    (hf : ∀ a, (f a).Shrinks) : (r >>= f).Consumes := by
  intro s b s' h
  obtain ⟨a, s₁, h₁, h₂⟩ := bind_eq_ok h
  exact Nat.lt_of_le_of_lt (hf a h₂) (hr h₁)

theorem shrinks_exactly (n : Nat) : Shrinks (exactly n) := by
  intro s a s' h
  have := Source.length_of_readFull h
  omega

theorem consumes_value (α : Type) [FixedWidth α] (h : 0 < FixedWidth.size α) :
    Consumes (value α) := by
  refine Consumes.bind (fun s a s' hr => ?_) fun _ => shrinks_lift _
  have := Source.length_of_readFull hr
  omega

end Reader

end MinecraftWire
