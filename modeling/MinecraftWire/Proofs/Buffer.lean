import MinecraftWire.Buffer
import MinecraftWire.Proofs.Reader

/-! Buffers as pairs. A buffer is the bytes that were read and those to come, cut where the cursor
stands. Whatever is done to it, also where that fails, it gives the answers of such a pair and goes
on as the pair does, so the cursor never leaves the stored bytes. To read a number of bytes at once
or by read calls makes no difference. -/

namespace MinecraftWire

/-! ### Operations -/

namespace Buffer

/-- What can be done to a buffer. -/
inductive Operation where
  | append (bytes : Bytes)
  | push (byte : UInt8)
  | emit (pieces : Pieces)
  | readExact (n : Nat)
  /-- By read calls that have room for so many bytes each, and one more. -/
  | readFull (room : Nat → Nat) (n : Nat)
  | readByte
  | takeRemaining
  | read (room : Nat)
  | peek
  | rewind (position : Nat)
  | discardConsumed
  | clear

/-- What an operation tells. -/
inductive Answer where
  | done
  | bytes (bytes : Bytes)
  | byte (b : UInt8)
  | failed (fault : Fault)
  deriving DecidableEq, Repr

def Answer.of {α : Type} (tell : α → Answer) : Except Fault α → Answer
  | .ok a => tell a
  | .error fault => failed fault

def perform (op : Operation) (b : Buffer) : Answer × Buffer :=
  match op with
  | .append bytes => (.done, b.append bytes)
  | .push byte => (.done, b.push byte)
  | .emit pieces => (.of (fun _ => .done) (b.emit pieces).1, (b.emit pieces).2)
  | .readExact n => (.of .bytes (b.readExact n).1, (b.readExact n).2)
  | .readFull room n => (.of .bytes (b.readFull room n).1, (b.readFull room n).2)
  | .readByte => (.of .byte b.readByte.1, b.readByte.2)
  | .takeRemaining => (.bytes b.takeRemaining.1, b.takeRemaining.2)
  | .read room => (.bytes (b.read room).1, (b.read room).2)
  | .peek => (.bytes b.unread, b)
  | .rewind position => (.of (fun _ => .done) (b.rewind position).1, (b.rewind position).2)
  | .discardConsumed => (.done, b.discardConsumed)
  | .clear => (.done, b.clear)

/-- Operations one after another, whether or not some of them fail. -/
def Operation.run {σ : Type} (perform : Operation → σ → Answer × σ) :
    List Operation → σ → List Answer × σ
  | [], s => ([], s)
  | op :: ops, s =>
    let step := perform op s
    let rest := run perform ops step.2
    (step.1 :: rest.1, rest.2)

/-- What looks the same after one operation looks the same after many. -/
theorem Operation.run_view {σ τ : Type} {f : Operation → σ → Answer × σ}
    {g : Operation → τ → Answer × τ} {view : σ → τ}
    (hstep : ∀ op s, g op (view s) = ((f op s).1, view (f op s).2)) (ops : List Operation) (s : σ) :
    run g ops (view s) = ((run f ops s).1, view (run f ops s).2) := by
  induction ops generalizing s with
  | nil => rfl
  | cons op ops ih => simp only [run, hstep, ih]

end Buffer

/-! ### The pair -/

/-- The bytes that were read and those to come. -/
structure Halves where
  consumed : Bytes
  unread : Bytes
  deriving DecidableEq, Repr

namespace Halves

open Buffer (Operation Answer)

/-- All bytes that are stored. -/
def stored (h : Halves) : Bytes :=
  h.consumed ++ h.unread

/-- Read what there is of the next `n` bytes. -/
def advance (n : Nat) (h : Halves) : Halves :=
  ⟨h.consumed ++ h.unread.take n, h.unread.drop n⟩

/-- What an operation tells of a pair, and the pair it leaves. -/
def perform : Operation → Halves → Answer × Halves
  | .append bytes, h => (.done, ⟨h.consumed, h.unread ++ bytes⟩)
  | .push byte, h => (.done, ⟨h.consumed, h.unread ++ [byte]⟩)
  | .emit pieces, h =>
    (.of (fun _ => .done) pieces.bytes, ⟨h.consumed, h.unread ++ pieces.assemble.1⟩)
  | .readExact n, h | .readFull _ n, h =>
    if n ≤ h.unread.length then (.bytes (h.unread.take n), h.advance n)
    else (.failed (.unexpectedEnd n h.unread), ⟨h.consumed ++ h.unread, []⟩)
  | .readByte, ⟨consumed, b :: unread⟩ => (.byte b, ⟨consumed ++ [b], unread⟩)
  | .readByte, ⟨consumed, []⟩ => (.failed (.unexpectedEnd 1 []), ⟨consumed, []⟩)
  | .takeRemaining, h => (.bytes h.unread, ⟨h.consumed ++ h.unread, []⟩)
  | .read room, h => (.bytes (h.unread.take room), h.advance room)
  | .peek, h => (.bytes h.unread, h)
  | .rewind position, h =>
    if position ≤ h.stored.length then (.done, ⟨h.stored.take position, h.stored.drop position⟩)
    else (.failed (.format (.rewind position h.stored.length)), h)
  | .discardConsumed, h => (.done, ⟨[], h.unread⟩)
  | .clear, _ => (.done, ⟨[], []⟩)

end Halves

/-! ### A buffer as a pair -/

namespace Buffer

variable {b b' : Buffer}

def halves (b : Buffer) : Halves :=
  ⟨b.consumed, b.unread⟩

theorem ext (hdata : b.data = b'.data) (hposition : b.position = b'.position) : b = b' := by
  cases b
  cases b'
  simp_all

theorem consumed_append_unread (b : Buffer) : b.consumed ++ b.unread = b.data :=
  List.take_append_drop _ _

theorem length_consumed (b : Buffer) : b.consumed.length = b.position := by
  rw [consumed, List.length_take, Nat.min_eq_left b.position_le]

theorem length_unread (b : Buffer) : b.unread.length = b.remaining := by
  rw [unread, List.length_drop, remaining]

theorem stored_halves (b : Buffer) : b.halves.stored = b.data :=
  b.consumed_append_unread

@[simp] theorem halves_append (bytes : Bytes) (b : Buffer) :
    (b.append bytes).halves = ⟨b.consumed, b.unread ++ bytes⟩ := by
  simp only [halves, consumed, unread, append]
  rw [List.take_append_of_le_length b.position_le, List.drop_append_of_le_length b.position_le]

@[simp] theorem halves_skip (n : Nat) (b : Buffer) : (b.skip n).halves = b.halves.advance n := by
  have hconsumed : b.data.take (b.position + min n b.remaining) =
      b.consumed ++ b.unread.take n := by
    rw [List.take_add, consumed, unread, List.take_eq_take_min (i := n), List.length_drop, remaining]
  have hunread : b.data.drop (b.position + min n b.remaining) = b.unread.drop n := by
    rw [← List.drop_drop, ← unread, List.drop_eq_drop_min (i := n), length_unread]
  rw [halves, consumed, unread, skip, hconsumed, hunread]
  rfl

@[simp] theorem halves_toEnd (b : Buffer) : b.toEnd.halves = ⟨b.consumed ++ b.unread, []⟩ := by
  rw [consumed_append_unread]
  simp [halves, consumed, unread, toEnd]

@[simp] theorem halves_discardConsumed (b : Buffer) :
    b.discardConsumed.halves = ⟨[], b.unread⟩ := by
  simp [halves, consumed, unread, discardConsumed, ofBytes]

theorem toEnd_eq_skip {n : Nat} (h : b.remaining ≤ n) : b.toEnd = b.skip n := by
  have hle := b.position_le
  have hremaining : b.remaining = b.data.length - b.position := rfl
  exact ext rfl (by simp only [toEnd, skip]; omega)

/-- The cursor goes past `n` bytes, or to the end and all that was left is told. -/
theorem readExact_eq (n : Nat) (b : Buffer) : b.readExact n =
    (if n ≤ b.remaining then .ok (b.unread.take n) else .error (.unexpectedEnd n b.unread),
      b.skip n) := by
  unfold readExact
  split
  · rename_i hn
    exact Prod.ext rfl (ext rfl (by simp [skip, Nat.min_eq_left hn]))
  · rename_i hn
    rw [toEnd_eq_skip (Nat.le_of_not_le hn)]

theorem readByte_of_nil (h : b.unread = []) :
    b.readByte = (.error (.unexpectedEnd 1 []), b.skip 1) := by
  rw [readByte, readExact_eq, ← length_unread, h]
  rfl

theorem readByte_of_cons {byte : UInt8} {rest : Bytes} (h : b.unread = byte :: rest) :
    b.readByte = (.ok byte, b.skip 1) := by
  rw [readByte, readExact_eq, ← length_unread, h, if_pos (by simp)]
  rfl

theorem halves_rewind (position : Nat) (b : Buffer) : (b.rewind position).2.halves =
    if position ≤ b.data.length then ⟨b.data.take position, b.data.drop position⟩
    else b.halves := by
  unfold rewind
  split <;> rfl

/-- A form goes behind what is there, up to the first piece that cannot be written. -/
theorem emit_eq (pieces : Pieces) (b : Buffer) : b.emit pieces =
    (pieces.bytes.map fun _ => (), b.append pieces.assemble.1) := by
  rcases h : pieces.assemble with ⟨bytes, _ | fault⟩ <;>
    simp [emit, Pieces.bytes, h, Except.map]

/-! ### Two ways to read -/

@[simp] theorem unread_skip (n : Nat) (b : Buffer) : (b.skip n).unread = b.unread.drop n :=
  congrArg Halves.unread (halves_skip n b)

theorem skip_zero (b : Buffer) : b.skip 0 = b :=
  ext rfl (by simp [skip])

theorem skip_skip (m n : Nat) (b : Buffer) : (b.skip m).skip n = b.skip (m + n) :=
  ext rfl (by simp only [skip, remaining]; omega)

/-- More bytes than are left are as many as are left. -/
theorem skip_length_take (n : Nat) (b : Buffer) : b.skip (b.unread.take n).length = b.skip n :=
  ext rfl (by simp only [skip, List.length_take, length_unread]; omega)

/-- What is handed out in many calls is what would be handed out in one. -/
theorem collect_eq (room : Nat → Nat) (calls n : Nat) (b : Buffer) :
    b.collect room calls n = (b.unread.take n, b.skip n) := by
  fun_induction collect room calls n b with
  | case1 calls b => rw [List.take_zero, skip_zero]
  | case2 calls n b hn b' hread =>
    obtain ⟨hgot, rfl⟩ := Prod.mk.inj hread
    have hunread : b.unread = [] := (List.take_eq_nil_iff.mp hgot).resolve_left (by omega)
    rw [← skip_length_take, ← skip_length_take n, hunread, List.take_nil, List.take_nil]
  | case3 calls n b hn byte got b' hread more b'' hmore ih =>
    obtain ⟨hgot, rfl⟩ := Prod.mk.inj hread
    have hlength : (b.unread.take (min n (room calls + 1))).length = got.length + 1 := by
      rw [hgot, List.length_cons]
    have hle : got.length + 1 ≤ n := by
      rw [List.length_take] at hlength
      omega
    -- after a call that hands out some bytes the rest is wanted from the bytes behind them
    have hskip : b.skip (min n (room calls + 1)) = b.skip (got.length + 1) := by
      rw [← skip_length_take, hlength]
    have hfront : b.unread.take (got.length + 1) = byte :: got := by
      rw [← hgot, ← hlength, List.length_take, ← List.take_eq_take_min]
    rw [hmore, hskip, unread_skip, skip_skip, Nat.add_sub_cancel' hle] at ih
    obtain ⟨rfl, rfl⟩ := Prod.mk.inj ih
    rw [← hfront, ← List.take_add, Nat.add_sub_cancel' hle]

theorem readFull_eq_readExact (room : Nat → Nat) (n : Nat) (b : Buffer) :
    b.readFull room n = b.readExact n := by
  rw [readFull, collect_eq, readExact_eq, ← length_unread]
  dsimp only
  rw [List.length_take]
  by_cases hn : n ≤ b.unread.length
  · rw [if_pos hn, if_neg (by omega)]
  · rw [if_neg hn, if_pos (by omega), List.take_of_length_le (by omega)]

theorem run_exactly (n : Nat) (bytes : Bytes) : (Reader.exactly n).run bytes =
    (if n ≤ bytes.length then .ok (bytes.take n) else .error (.unexpectedEnd n bytes),
      bytes.drop n) := by
  obtain ⟨s', hread, hp, -⟩ := (Source.ofBytes bytes).readFull_eq n
  simp only [Reader.run, Reader.exactly, hread, hp]
  rfl

theorem readWith_exactly (n : Nat) (b : Buffer) :
    b.readWith (Reader.exactly n) = b.readExact n := by
  rw [readWith, run_exactly, readExact_eq, length_unread]
  refine Prod.ext rfl (ext rfl ?_)
  have hle := b.position_le
  simp only [skip, List.length_drop, length_unread, remaining]
  omega

/-! ### Runs -/

theorem perform_readExact (n : Nat) (b : Buffer) : Halves.perform (.readExact n) b.halves =
    ((b.perform (.readExact n)).1, (b.perform (.readExact n)).2.halves) := by
  rw [perform, readExact_eq, halves_skip, ← length_unread]
  by_cases hn : n ≤ b.unread.length
  · simp [Halves.perform, hn, Answer.of, halves]
  · simp [Halves.perform, hn, Answer.of, halves, Halves.advance,
      List.take_of_length_le (Nat.le_of_not_le hn), List.drop_of_length_le (Nat.le_of_not_le hn)]

/-- An operation does to a buffer what it does to the pair. -/
theorem perform_halves (op : Operation) (b : Buffer) :
    Halves.perform op b.halves = ((b.perform op).1, (b.perform op).2.halves) := by
  cases op with
  | append bytes => exact Prod.ext rfl (halves_append bytes b).symm
  | push byte => exact Prod.ext rfl (halves_append [byte] b).symm
  | emit pieces =>
    rw [perform, emit_eq, halves_append]
    cases h : pieces.bytes <;> simp [Halves.perform, h, Except.map, Answer.of, halves]
  | readExact n => exact perform_readExact n b
  | readFull room n =>
    rw [perform, readFull_eq_readExact]
    exact perform_readExact n b
  | readByte =>
    rcases hunread : b.unread with _ | ⟨byte, rest⟩
    · have hhalves : b.halves = ⟨b.consumed, []⟩ := by rw [halves, hunread]
      rw [perform, readByte_of_nil hunread, halves_skip, hhalves]
      simp [Halves.perform, Halves.advance, Answer.of]
    · have hhalves : b.halves = ⟨b.consumed, byte :: rest⟩ := by rw [halves, hunread]
      rw [perform, readByte_of_cons hunread, halves_skip, hhalves]
      rfl
  | takeRemaining => exact Prod.ext rfl (halves_toEnd b).symm
  | read room => exact Prod.ext rfl (halves_skip room b).symm
  | peek => rfl
  | rewind position =>
    rw [perform, halves_rewind, Halves.perform, stored_halves]
    by_cases hposition : position ≤ b.data.length <;> simp [rewind, hposition, Answer.of]
  | discardConsumed => exact Prod.ext rfl (halves_discardConsumed b).symm
  | clear => rfl

/-- After any operations a buffer has told what the pair tells and is what the pair is: the cursor
stands where the bytes to come begin. From there a number of bytes can be read at once, by read calls
of any sizes or as from any other channel, with one outcome and one buffer left. -/
theorem run_refines_halves (ops : List Operation) (b : Buffer) :
    let told := Operation.run Halves.perform ops b.halves
    let after := (Operation.run perform ops b).2
    (Operation.run perform ops b).1 = told.1 ∧ after.halves = told.2 ∧
    after.data = told.2.stored ∧ after.position = told.2.consumed.length ∧
    after.position ≤ after.length ∧
    ∀ n, after.readWith (Reader.exactly n) = after.readExact n ∧
      ∀ room, after.readFull room n = after.readExact n := by
  intro told after
  have htold : told = ((Operation.run perform ops b).1, after.halves) :=
    Operation.run_view perform_halves ops b
  refine ⟨?_, ?_, ?_, ?_, after.position_le, fun n => ⟨readWith_exactly n after, fun room => ?_⟩⟩
  · rw [htold]
  · rw [htold]
  · rw [htold, stored_halves]
  · rw [htold]
    exact after.length_consumed.symm
  · exact readFull_eq_readExact room n after

/-- A read that fails, a way back, and bytes that come after the read ones are gone. -/
example :
    Operation.run Halves.perform
      [.append [1, 2, 3], .readExact 2, .readExact 2, .rewind 1, .readByte, .discardConsumed,
        .push 4, .rewind 3, .takeRemaining] ⟨[], []⟩ =
      ([.done, .bytes [1, 2], .failed (.unexpectedEnd 2 [3]), .done, .byte 2, .done, .done,
        .failed (.format (.rewind 3 2)), .bytes [3, 4]], ⟨[3, 4], []⟩) := by
  decide

end Buffer

end MinecraftWire
