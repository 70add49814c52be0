import MinecraftWire.Fault

/-! Byte channels. A source hands out its bytes in pieces whose sizes it chooses; a sink takes bytes
until it is full. Codecs touch a channel only by reading exactly as many bytes as they need and by
writing whole byte strings. -/

namespace MinecraftWire

/-- Bytes to come from a channel and how it hands them out. -/
structure Source where
  pending : Bytes
  /-- Whether the channel fails, rather than ends, after its last byte. -/
  failing : Bool
  /-- The most bytes handed out by each read call, less one. -/
  grant : Nat → Nat
  /-- The read calls made so far. -/
  calls : Nat

namespace Source

/-- A channel that hands out at most `size` bytes at a time, and at least one. -/
def chunked (size : Nat) (failing : Bool) (bytes : Bytes) : Source :=
  ⟨bytes, failing, fun _ => size - 1, 0⟩

/-- A channel that hands out whatever it is asked for. -/
def ofBytes (bytes : Bytes) : Source :=
  chunked bytes.length false bytes

/-- One read call for at most `room` bytes. Nothing is handed out at the end of the channel. -/
def read (room : Nat) (s : Source) : Except Fault Bytes × Source :=
  let after := { s with calls := s.calls + 1 }
  if s.pending.isEmpty then
    (if s.failing then .error (.channel .source) else .ok [], after)
  else
    let (got, rest) := s.pending.splitAt (min room (s.grant s.calls + 1))
    (.ok got, { after with pending := rest })

/-- Read until `n` more bytes have come or the channel ends; `acc` holds what came before, last byte
first. No call is made once nothing is wanted. -/
def collect (n : Nat) (acc : Bytes) (s : Source) : Except Fault Bytes × Source :=
  if n = 0 then (.ok acc, s)
  else
    match s.read n with
    | (.error fault, s') => (.error fault, s')
    | (.ok [], s') => (.ok acc, s')
    | (.ok (b :: got), s') => collect (n - (got.length + 1)) (got.reverseAux (b :: acc)) s'
termination_by n

/-- Read exactly `n` bytes. -/
def readFull (n : Nat) (s : Source) : Except Fault Bytes × Source :=
  match s.collect n [] with
  | (.error fault, s') => (.error fault, s')
  | (.ok acc, s') =>
    if acc.length < n then (.error (.unexpectedEnd n acc.reverse), s') else (.ok acc.reverse, s')

theorem length_of_read {room : Nat} {s s' : Source} {got : Bytes}
    (h : s.read room = (.ok got, s')) : got.length + s'.pending.length = s.pending.length := by
  simp only [read, List.splitAt_eq] at h
  split at h
  · rename_i he
    split at h <;> simp only [Prod.mk.injEq, reduceCtorEq, false_and, Except.ok.injEq] at h
    obtain ⟨rfl, rfl⟩ := h
    simp
  · simp only [Prod.mk.injEq, Except.ok.injEq] at h
    obtain ⟨rfl, rfl⟩ := h
    simp only [List.length_take, List.length_drop]
    omega

theorem length_of_collect {n : Nat} {acc acc' : Bytes} {s s' : Source}
    (h : s.collect n acc = (.ok acc', s')) :
    acc'.length + s'.pending.length = acc.length + s.pending.length := by
  induction n using Nat.strongRecOn generalizing acc s with
  | ind n ih =>
    rw [collect] at h
    split at h
    · simp only [Prod.mk.injEq, Except.ok.injEq] at h
      rw [h.1, h.2]
    · rename_i hn
      split at h
      · simp at h
      · rename_i hr
        simp only [Prod.mk.injEq, Except.ok.injEq] at h
        have := length_of_read hr
        simp_all
      · rename_i b got s₁ hr
        have hl := length_of_read hr
        have := ih (n - (got.length + 1)) (by omega) h
        simp only [List.reverseAux_eq, List.length_append, List.length_reverse,
          List.length_cons] at this hl
        omega

theorem length_of_readFull {n : Nat} {s s' : Source} {bytes : Bytes}
    (h : s.readFull n = (.ok bytes, s')) : s'.pending.length + n ≤ s.pending.length := by
  unfold readFull at h
  split at h
  · simp at h
  · rename_i acc s₁ hc
    split at h
    · simp at h
    · simp only [Prod.mk.injEq, Except.ok.injEq] at h
      have := length_of_collect hc
      simp only [List.length_nil, h.2] at this
      omega

/-- Read to the end of the channel. -/
def readAll (s : Source) : Except Fault Bytes × Source :=
  let after := { s with pending := [], calls := s.calls + 1 }
  if s.failing then (.error (.channel .source), after) else (.ok s.pending, after)

end Source

/-- Bytes a channel has taken and the number it will still take, if there is a limit. -/
structure Sink where
  held : Bytes
  room : Option Nat

namespace Sink

def unlimited : Sink := ⟨[], none⟩

def limited (room : Nat) : Sink := ⟨[], some room⟩

/-- Write a byte string. A sink without room for all of it takes what fits and fails. -/
def write (bytes : Bytes) (s : Sink) : Except Fault Unit × Sink :=
  match s.room with
  | none => (.ok (), { s with held := s.held ++ bytes })
  | some room =>
    if bytes.length ≤ room then (.ok (), ⟨s.held ++ bytes, some (room - bytes.length)⟩)
    else (.error (.channel .sink), ⟨s.held ++ bytes.take room, some 0⟩)

end Sink

end MinecraftWire
