import MinecraftWire.Proofs.Buffer
import MinecraftWire.Proofs.ChannelEnd
import MinecraftWire.Proofs.Reader.Oblivious
import MinecraftWire.Frame

/-! Reading under any schedule. Trees and packets are read by oblivious readers, as fields are. So
whoever reads one thing after another, and goes by what was told, is told the same by every channel
that holds the same bytes, whatever pieces it hands them out in, and the same as by a buffer that
holds them; and the same bytes are left. -/

namespace MinecraftWire

/-! ### Trees -/

namespace Nbt.Read

open Reader

theorem oblivious_kind : Read.kind.Oblivious :=
  (oblivious_value UInt8).bind fun _ => oblivious_lift _

theorem oblivious_text : Read.text.Oblivious := by
  refine (oblivious_value Int16).bind fun length => ?_
  split
  · exact oblivious_fail _
  · exact (oblivious_exactly _).bind fun _ => oblivious_lift _

theorem oblivious_count (kind : TagKind) : (count kind).Oblivious := by
  refine (oblivious_value Int32).bind fun length => ?_
  split
  · exact oblivious_fail _
  · exact oblivious_pure _

theorem oblivious_array (α : Type) [FixedWidth α] (kind : TagKind) : (array α kind).Oblivious :=
  (oblivious_count kind).bind fun _ => (oblivious_exactly _).bind fun _ => oblivious_lift _

theorem oblivious_scalar (kind : TagKind) : (scalar kind).Oblivious := by
  cases kind with
  | endMark => exact oblivious_pure _
  | list => exact oblivious_fail _
  | compound => exact oblivious_fail _
  | string => exact oblivious_text.map _
  | byteArray => exact (oblivious_array Int8 _).map _
  | intArray => exact (oblivious_array Int32 _).map _
  | longArray => exact (oblivious_array Int64 _).map _
  | _ => exact (oblivious_value _).map _

theorem oblivious_listHeading : listHeading.Oblivious := by
  refine oblivious_kind.bind fun element => (oblivious_count .list).bind fun n => ?_
  split
  · exact oblivious_fail _
  · exact oblivious_pure _

theorem oblivious_childHeading : childHeading.Oblivious := by
  refine oblivious_kind.bind fun kind => ?_
  split
  · exact oblivious_pure _
  · exact oblivious_text.map _

theorem oblivious_enter (stack : List Open) (kind : TagKind) : (enter stack kind).Oblivious := by
  unfold enter
  split
  · exact (oblivious_lift _).bind fun _ => oblivious_listHeading.map _
  · exact (oblivious_lift _).map _
  · exact (oblivious_scalar _).map _

theorem oblivious_resume (entered : TagKind) (stack : List Open) (o : Open) :
    (resume entered stack o).Oblivious := by
  unfold resume
  split
  · exact oblivious_pure _
  · exact (oblivious_lift _).map _
  · refine oblivious_childHeading.bind fun child => ?_
    split <;> exact oblivious_pure _

theorem oblivious_step (focus : Focus) (stack : List Open) : (step focus stack).Oblivious := by
  unfold step
  split
  · exact oblivious_enter _ _
  · exact oblivious_pure _
  · exact oblivious_fail _
  · exact (oblivious_lift _).bind fun _ => oblivious_resume _ _ _

/-- Step by step the loop is at the same point on both channels. -/
theorem oblivious_run (focus : Focus) (stack : List Open) : Oblivious (run focus stack) := by
  intro s
  fun_induction run focus stack s with
  | case1 focus stack s fault s' hstep =>
    intro t h
    obtain ⟨t', ht, h'⟩ := (oblivious_step focus stack).exists_of_eq h hstep
    rw [run_of_fault ht]
    exact ⟨rfl, h'⟩
  | case2 focus stack s tag s' hstep =>
    intro t h
    obtain ⟨t', ht, h'⟩ := (oblivious_step focus stack).exists_of_eq h hstep
    rw [run_of_finished ht]
    exact ⟨rfl, h'⟩
  | case3 focus stack s focus' stack' s' hstep ih =>
    intro t h
    obtain ⟨t', ht, h'⟩ := (oblivious_step focus stack).exists_of_eq h hstep
    rw [run_of_running ht]
    exact ih h'

theorem oblivious_rootName (header : Header) : (rootName header).Oblivious := by
  cases header with
  | named => exact oblivious_text.map _
  | unnamed => exact oblivious_pure _

theorem oblivious_root (header : Header) : (root header).Oblivious := by
  rw [root_eq]
  refine oblivious_kind.bind fun kind => ?_
  split
  · exact oblivious_pure _
  · exact (oblivious_rootName header).bind fun _ => (oblivious_run _ _).map _

end Nbt.Read

namespace Reader

variable {α : Type} {r : Reader α}

theorem Operation.oblivious (h : Operation r) : r.Oblivious := by
  induction h with
  | value α => exact oblivious_value α
  | varInt => exact oblivious_varInt
  | varLong => exact oblivious_varLong
  | text limit => exact oblivious_text limit
  | latin1 => exact oblivious_latin1
  | blob => exact oblivious_blob
  | exactly n => exact oblivious_exactly n
  | remaining => exact oblivious_remaining
  | optional _ ih => exact ih.optional
  | tree header => exact Nbt.Read.oblivious_root header

/-! ### Packets -/

theorem oblivious_packet (settings : FrameSettings) (set : PacketSet) :
    (packet settings set).Oblivious :=
  oblivious_varInt.bind fun _ => (oblivious_lift _).bind fun _ =>
    (oblivious_exactly _).bind fun _ => oblivious_lift _

theorem orderly_packet (settings : FrameSettings) (set : PacketSet) :
    (packet settings set).Orderly fun _ => True :=
  (orderly_varInt.mono fun _ _ => trivial).bind fun _ =>
    (orderly_lift fun _ _ => trivial).bind fun _ =>
      (orderly_exactly _).bind fun _ => orderly_lift fun _ _ => trivial

/-! ### Calls one after another -/

/-- The readers that a channel is read with. -/
inductive Call : {α : Type} → Reader α → Prop where
  | operation {α : Type} {r : Reader α} (h : Operation r) : Call r
  | packet (settings : FrameSettings) (set : PacketSet) : Call (packet settings set)

theorem Call.oblivious (h : Call r) : r.Oblivious := by
  cases h with
  | operation h => exact h.oblivious
  | packet settings set => exact oblivious_packet settings set

/-- A call leaves the end of what there was. -/
theorem Call.behind (h : Call r) (s : Source) : (r s).2.Behind s := by
  cases h with
  | operation h => exact (h.orderly s).behind
  | packet settings set => exact (orderly_packet settings set s).behind

/-- Calls one after another, whether or not some of them fail, each chosen in sight of what was told
before it; a fixed sequence is one whose choices look at nothing. -/
inductive Script : Type 1 where
  | stop
  | call {α : Type} (r : Reader α) (hr : Call r) (next : Except Fault α → Script)

namespace Script

/-- What the calls tell, and what they leave of the state that they are performed on. -/
def run {σ : Type} (perform : {α : Type} → Reader α → σ → Except Fault α × σ) :
    Script → σ → List (Σ α : Type, Except Fault α) × σ
  | .stop, s => ([], s)
  | .call r _ next, s =>
    let step := perform r s
    let rest := run perform (next step.1) step.2
    (⟨_, step.1⟩ :: rest.1, rest.2)

/-- What the calls tell of a channel, and the bytes that are left there. -/
def onSource (script : Script) (s : Source) : List (Σ α : Type, Except Fault α) × Bytes :=
  let (told, s') := script.run (fun r => r) s
  (told, s'.pending)

/-- What the calls tell of a buffer, and the bytes that are left there. -/
def onBuffer (script : Script) (b : Buffer) : List (Σ α : Type, Except Fault α) × Bytes :=
  let (told, b') := script.run (fun r b => b.readWith r) b
  (told, b'.unread)

/-- What agrees on every call agrees on all of them. -/
theorem run_agree {σ τ : Type} {f : {α : Type} → Reader α → σ → Except Fault α × σ}
    {g : {α : Type} → Reader α → τ → Except Fault α × τ} {R : σ → τ → Prop}
    (hcall : ∀ {α : Type} {r : Reader α}, Call r → ∀ {s t}, R s t → Agree R (f r s) (g r t))
    (script : Script) {s : σ} {t : τ} (h : R s t) : Agree R (script.run f s) (script.run g t) := by
  induction script generalizing s t with
  | stop => exact ⟨rfl, h⟩
  | call r hr next ih =>
    obtain ⟨htold, hleft⟩ := hcall hr h
    obtain ⟨hrest, hend⟩ := ih (f r s).1 hleft
    rw [htold] at hrest hend
    refine ⟨?_, ?_⟩
    · simp only [run, htold, hrest]
    · simpa only [run, htold] using hend

end Script

end Reader

/-! ### Buffers -/

/-- A channel that holds what is left of a buffer. -/
structure Source.Holds (s : Source) (b : Buffer) : Prop where
  pending : s.pending = b.unread
  failing : s.failing = false

namespace Buffer

variable {α : Type} {r : Reader α}

/-- Behind a reader that moves forward the cursor stands where the bytes begin that it left. -/
theorem unread_readWith {b : Buffer} (h : (r.run b.unread).2 <:+ b.unread) :
    (b.readWith r).2.unread = (r.run b.unread).2 :=
  (List.suffix_iff_eq_drop.mp (h.trans (List.drop_suffix _ _))).symm

theorem agree_readWith {b : Buffer} {s : Source} (hr : Reader.Call r) (h : s.Holds b) :
    Agree Source.Holds (r s) (b.readWith r) := by
  have halike : s.Alike (.ofBytes b.unread) := ⟨h.pending, h.failing⟩
  have hbehind := hr.behind (.ofBytes b.unread)
  obtain ⟨houtcome, hleft⟩ := hr.oblivious halike
  refine ⟨houtcome, ?_, ?_⟩
  · rw [unread_readWith hbehind.pending]
    exact hleft.pending
  · rw [hleft.failing, hbehind.failing]
    rfl

end Buffer

/-! ### Calls of any room -/

namespace Source

/-- Call until `n` more bytes have come or none is handed out; `acc` holds what came before. The
caller chooses how many bytes it has room for in each call, less one. -/
def gather (room : Nat → Nat) (n : Nat) (acc : Bytes) (s : Source) : Except Fault Bytes × Source :=
  if n = 0 then (.ok acc, s)
  else
    match s.read (min n (room s.calls + 1)) with
    | (.error fault, s') => (.error fault, s')
    | (.ok [], s') => (.ok acc, s')
    | (.ok (b :: got), s') => gather room (n - (got.length + 1)) (acc ++ b :: got) s'
termination_by n

/-- Whatever room the calls have, they end neither too early nor too late: the first bytes come, as
many as are wanted, and only a channel that fails before that withholds them. -/
theorem gather_eq (room : Nat → Nat) (n : Nat) (acc : Bytes) (s : Source) :
    ∃ s', s.gather room n acc =
        (if s.pending.length < n ∧ s.failing then .error (.channel .source)
          else .ok (acc ++ s.pending.take n), s') ∧
      s'.pending = s.pending.drop n ∧ s'.failing = s.failing := by
  induction n using Nat.strongRecOn generalizing acc s with
  | ind n ih =>
    rw [gather]
    by_cases hn : n = 0
    · subst hn
      exact ⟨s, by simp, rfl, rfl⟩
    rw [if_neg hn]
    by_cases hp : s.pending = []
    · refine ⟨{ s with calls := s.calls + 1 }, ?_, by simp [hp], rfl⟩
      rw [read_of_nil hp]
      cases s.failing <;> simp [hp, Nat.pos_of_ne_zero hn]
    have hwanted : min n (room s.calls + 1) ≠ 0 := by omega
    obtain ⟨b, got, s₁, hread, hroom, hpending, hfailing⟩ := read_eq_ok hwanted hp
    have hgot : (b :: got).length ≤ n := Nat.le_trans hroom (Nat.min_le_left _ _)
    obtain ⟨s', hs, hp', hf'⟩ := ih (n - (got.length + 1)) (by omega) (acc ++ b :: got) s₁
    obtain ⟨htake, hdrop, hshort⟩ := wanted_append hgot s₁.pending
    rw [← hpending] at htake hdrop hshort
    refine ⟨s', ?_, hp'.trans hdrop.symm, hf'.trans hfailing⟩
    rw [hread]
    dsimp only
    rw [hs]
    simp only [hshort, htake, hfailing, List.length_cons, List.append_assoc]

/-- Who wants more than there is comes to the end of the channel. -/
theorem gather_of_lt (room : Nat → Nat) {n : Nat} {s : Source} (h : s.pending.length < n) :
    ∃ s', s.gather room n [] = (s.readAll.1, s') ∧ s'.Alike s.readAll.2 := by
  obtain ⟨s', hgather, hp, hf⟩ := s.gather_eq room n []
  rw [List.drop_of_length_le (Nat.le_of_lt h)] at hp
  refine ⟨s', ?_, ?_⟩
  · rw [hgather, List.take_of_length_le (Nat.le_of_lt h), readAll]
    cases s.failing <;> simp [h]
  · unfold readAll
    split <;> exact ⟨hp, hf⟩

end Source

/-! ### Schedules -/

namespace Reader.Script

theorem onSource_of_alike (script : Script) {s t : Source} (h : s.Alike t) :
    script.onSource s = script.onSource t := by
  obtain ⟨htold, hleft⟩ := script.run_agree (fun hr _ _ h => hr.oblivious h) h
  exact Prod.ext htold hleft.pending

theorem onSource_eq_onBuffer (script : Script) {s : Source} {b : Buffer} (h : s.Holds b) :
    script.onSource s = script.onBuffer b := by
  obtain ⟨htold, hleft⟩ := script.run_agree (fun hr _ _ h => Buffer.agree_readWith hr h) h
  exact Prod.ext htold hleft.pending

/-- Whatever pieces a channel hands out its bytes in, a number of them is read as off a buffer: the
first ones come and the others are left, or all there are come and are told as too few; for none at
all there is no call. The room that the caller has in each call makes no difference to this, nor to
reading up to the end. So what is read one thing after another is told and left as off the buffer,
and it is the same for every schedule, also on channels that fail behind their bytes. -/
theorem run_of_any_schedule (b : Buffer) (grant : Nat → Nat) (calls : Nat) :
    let s (failing : Bool) : Source := ⟨b.unread, failing, grant, calls⟩
    (∀ failing, (s failing).readFull 0 = (.ok [], s failing)) ∧
    (∀ n, let outcome := if n ≤ b.unread.length then .ok (b.unread.take n)
        else .error (.unexpectedEnd n b.unread)
      (∃ s', (s false).readFull n = (outcome, s') ∧ s'.pending = b.unread.drop n) ∧
      (∃ b', b.readExact n = (outcome, b') ∧ b'.unread = b.unread.drop n) ∧
      ∀ room, ∃ s', (s false).gather room n [] = (.ok (b.unread.take n), s') ∧
        s'.pending = b.unread.drop n) ∧
    (∀ failing room more, ∃ s', (s failing).gather room (b.unread.length + 1 + more) [] =
        ((s failing).readAll.1, s') ∧ s'.Alike (s failing).readAll.2) ∧
    (∀ script : Script, script.onSource (s false) = script.onBuffer b) ∧
    ∀ (script : Script) (failing : Bool) (grant' : Nat → Nat) (calls' : Nat),
      script.onSource (s failing) = script.onSource ⟨b.unread, failing, grant', calls'⟩ := by
  intro s
  refine ⟨fun failing => (s failing).readFull_zero, fun n => ⟨?_, ?_, fun room => ?_⟩,
    fun failing room more => ?_, fun script => script.onSource_eq_onBuffer ⟨rfl, rfl⟩,
    fun script failing grant' calls' => script.onSource_of_alike ⟨rfl, rfl⟩⟩
  · obtain ⟨s', hread, hp, -⟩ := (s false).readFull_eq n
    exact ⟨s', hread, hp⟩
  · refine ⟨b.skip n, ?_, b.unread_skip n⟩
    rw [b.readExact_eq, b.length_unread]
  · obtain ⟨s', hgather, hp, -⟩ := (s false).gather_eq room n []
    exact ⟨s', hgather.trans (by simp [s]), hp⟩
  · have hbeyond : (s failing).pending.length < b.unread.length + 1 + more := by
      change b.unread.length < _
      omega
    exact (s failing).gather_of_lt room hbeyond

end Reader.Script

end MinecraftWire
