import Mathlib.Logic.Function.Basic
import MinecraftWire.Proofs.Registry

/-! Callers that ask one registry for tables at the same time. A caller takes three steps, and any
steps of others may come between them: it looks for the table of its effective version; if there is
none, it builds one, which only it knows of; and then it offers what it built, to get back what the
registry has by then. Several callers may build a table for one version. All get the same one. -/

namespace MinecraftWire.Registry

/-- How far a caller has come. -/
inductive Progress where
  | asked
  /-- There was no table for the effective version. -/
  | missed (effective : Version)
  /-- The caller has a table of its own that it has not offered yet. -/
  | built (effective : Version) (table : PublishedTable)
  | finished (outcome : Except Fault PublishedTable)

namespace Progress

def outcome? : Progress → Option (Except Fault PublishedTable)
  | .finished outcome => some outcome
  | _ => none

/-- The table that only the caller knows of. -/
def hand? : Progress → Option PublishedTable
  | .built _ table => some table
  | _ => none

/-- The number of steps to come. -/
def left : Progress → Nat
  | .asked => 3
  | .missed _ => 2
  | .built _ _ => 1
  | .finished _ => 0

theorem eq_of_hand? {progress : Progress} {p : PublishedTable} (h : progress.hand? = some p) :
    ∃ effective, progress = .built effective p := by
  cases progress with
  | built effective table => exact ⟨effective, congrArg _ (Option.some.inj h)⟩
  | _ => contradiction

theorem eq_of_outcome? {progress : Progress} {outcome : Except Fault PublishedTable}
    (h : progress.outcome? = some outcome) : progress = .finished outcome := by
  cases progress with
  | finished found => exact congrArg _ (Option.some.inj h)
  | _ => contradiction

theorem outcome?_of_left {progress : Progress} (h : progress.left = 0) :
    ∃ outcome, progress.outcome? = some outcome := by
  cases progress with
  | finished outcome => exact ⟨outcome, rfl⟩
  | _ => contradiction

end Progress

structure Caller where
  version : Version
  progress : Progress
  warnings : List Version.Resolution

/-- The registry, the number of tables built so far, published or not, and the callers. The number is
that of the next table. -/
structure Race (ι : Type) where
  registry : Registry
  tables : Nat
  callers : ι → Caller

/-- The next step of a caller. -/
def Caller.advance (r : Registry) (tables : Nat) (c : Caller) : Registry × Nat × Caller :=
  match c.progress with
  | .asked =>
    match r.resolution c.version with
    | ⟨.error fault, warnings, _⟩ => (r, tables, ⟨c.version, .finished (.error fault), warnings⟩)
    | ⟨.ok resolution, warnings, _⟩ =>
      match r.find? resolution.effective with
      | some published => (r, tables, ⟨c.version, .finished (.ok published), warnings⟩)
      | none => (r, tables, ⟨c.version, .missed resolution.effective, warnings⟩)
  | .missed effective =>
    match PacketTable.build effective with
    | .error fault => (r, tables, { c with progress := .finished (.error fault) })
    | .ok table => (r, tables + 1, { c with progress := .built effective ⟨tables, table⟩ })
  | .built effective table =>
    ((r.keep effective table).2, tables,
      { c with progress := .finished (.ok (r.keep effective table).1) })
  | .finished _ => (r, tables, c)

namespace Race

variable {ι : Type}

/-- Nobody has done anything yet. -/
def start (versions : ι → Version) : Race ι :=
  ⟨empty, 0, fun i => ⟨versions i, .asked, []⟩⟩

/-- What a caller that has finished got. -/
def outcome? (race : Race ι) (i : ι) : Option (Except Fault PublishedTable) :=
  (race.callers i).progress.outcome?

variable [DecidableEq ι]

/-- What one caller's step has come to. -/
def put (race : Race ι) (i : ι) (result : Registry × Nat × Caller) : Race ι :=
  ⟨result.1, result.2.1, Function.update race.callers i result.2.2⟩

def step (race : Race ι) (i : ι) : Race ι :=
  race.put i ((race.callers i).advance race.registry race.tables)

@[simp] theorem callers_put_self (race : Race ι) (i : ι) (result : Registry × Nat × Caller) :
    (race.put i result).callers i = result.2.2 :=
  Function.update_self ..

theorem callers_put_of_ne (race : Race ι) {i j : ι} (h : j ≠ i) (result : Registry × Nat × Caller) :
    (race.put i result).callers j = race.callers j :=
  Function.update_of_ne h ..

/-- The callers take their steps in the given order. -/
def run (race : Race ι) (schedule : List ι) : Race ι :=
  schedule.foldl step race

end Race

/-! ### One step -/

section Advance

variable {r : Registry} {n : Nat} {c : Caller}

/-- What a step of a caller can come to. -/
inductive Advances (r : Registry) (n : Nat) (c : Caller) : Registry × Nat × Caller → Prop where
  | refused {warnings : List Version.Resolution} (h : c.progress = .asked)
      (hv : c.version.resolve? = none) : Advances r n c
        (r, n, ⟨c.version, .finished (.error (.unsupportedVersion c.version)), warnings⟩)
  | found {effective : Version} {published : PublishedTable} {warnings : List Version.Resolution}
      (h : c.progress = .asked) (hv : c.version.effective? = some effective)
      (hfind : r.find? effective = some published) :
      Advances r n c (r, n, ⟨c.version, .finished (.ok published), warnings⟩)
  | missed {effective : Version} {warnings : List Version.Resolution} (h : c.progress = .asked)
      (hv : c.version.effective? = some effective) :
      Advances r n c (r, n, ⟨c.version, .missed effective, warnings⟩)
  | built {effective : Version} {table : PacketTable} (h : c.progress = .missed effective)
      (hbuild : PacketTable.build effective = .ok table) :
      Advances r n c (r, n + 1, { c with progress := .built effective ⟨n, table⟩ })
  | kept {effective : Version} {table : PublishedTable} (h : c.progress = .built effective table) :
      Advances r n c ((r.keep effective table).2, n,
        { c with progress := .finished (.ok (r.keep effective table).1) })
  | rested {outcome : Except Fault PublishedTable} (h : c.progress = .finished outcome) :
      Advances r n c (r, n, c)

theorem advances_advance (r : Registry) (n : Nat) (c : Caller) :
    Advances r n c (c.advance r n) := by
  unfold Caller.advance
  cases hprogress : c.progress with
  | asked =>
    rcases hv : c.version.resolve? with _ | resolution
    · rw [resolution_of_unsupported hv]
      exact .refused hprogress hv
    · have heffective : c.version.effective? = some resolution.effective := by
        rw [Version.effective?, hv]
        rfl
      rw [resolution_of_resolves hv]
      dsimp only
      cases hfind : r.find? resolution.effective with
      | some published => exact .found hprogress heffective hfind
      | none => exact .missed hprogress heffective
  | missed effective =>
    simp only [PacketTable.build_eq]
    exact .built hprogress (PacketTable.build_eq effective)
  | built effective table => exact .kept hprogress
  | finished outcome => exact .rested hprogress

/-- A caller that has not finished comes nearer to it. -/
theorem left_advance (r : Registry) (n : Nat) (c : Caller) :
    (c.advance r n).2.2.progress.left ≤ c.progress.left - 1 := by
  have h := advances_advance r n c
  generalize c.advance r n = result at h
  cases h with
  | refused h | found h | missed h | built h | kept h | rested h => simp [h, Progress.left]

/-- No step takes a table away from a version or gives it another. -/
theorem find?_advance {w : Version} {p : PublishedTable} (hw : r.find? w = some p) :
    (c.advance r n).1.find? w = some p := by
  have h := advances_advance r n c
  generalize c.advance r n = result at h
  cases h with
  | kept h => exact find?_keep_of_some _ _ hw
  | refused | found | missed | built | rested => exact hw

/-- A caller has come as far as its version allows, in sight of the registry and of the number of
tables built. -/
def Caller.At (r : Registry) (tables : Nat) (c : Caller) : Prop :=
  match c.progress with
  | .asked => True
  | .missed effective => c.version.effective? = some effective
  | .built effective table => c.version.effective? = some effective ∧
      PacketTable.build effective = .ok table.table ∧ table.number < tables
  | .finished (.ok published) =>
    ∃ effective, c.version.effective? = some effective ∧ r.find? effective = some published
  | .finished (.error fault) =>
    c.version.resolve? = none ∧ fault = .unsupportedVersion c.version

theorem Caller.At.mono {r' : Registry} {n' : Nat} (h : c.At r n)
    (hfind : ∀ w p, r.find? w = some p → r'.find? w = some p) (hle : n ≤ n') : c.At r' n' := by
  unfold Caller.At at h ⊢
  split at h
  · trivial
  · exact h
  · exact ⟨h.1, h.2.1, Nat.lt_of_lt_of_le h.2.2 hle⟩
  · obtain ⟨effective, hv, hpublished⟩ := h
    exact ⟨effective, hv, hfind _ _ hpublished⟩
  · exact h

end Advance

namespace Race

variable {ι : Type} {versions : ι → Version} {race : Race ι} {i : ι}

/-! ### What every step keeps -/

/-- Where a table is: published, or with one of the callers. -/
def Has (race : Race ι) : Option ι → PublishedTable → Prop
  | none, p => ∃ w, race.registry.find? w = some p
  | some i, p => (race.callers i).progress.hand? = some p

/-- Callers are where their versions have brought them. No number belongs to tables in two places, and
a table is published for none but a caller that has finished. -/
structure Coherent (versions : ι → Version) (race : Race ι) : Prop where
  numbered : race.registry.Numbered race.tables
  version (i : ι) : (race.callers i).version = versions i
  place (i : ι) : (race.callers i).At race.registry race.tables
  apart {a b : Option ι} {p q : PublishedTable} :
    race.Has a p → race.Has b q → p.number = q.number → a = b
  wanted {w : Version} : w ∈ race.registry.versions →
    ∃ i, (race.outcome? i).isSome ∧ (versions i).effective? = some w

theorem coherent_start (versions : ι → Version) : (start versions).Coherent versions where
  numbered := numbered_empty 0
  version i := rfl
  place i := trivial
  apart {a b p q} ha := by
    cases a with
    | none =>
      obtain ⟨w, hw⟩ := ha
      contradiction
    | some i => contradiction
  wanted h := by contradiction

theorem Coherent.place_built (h : race.Coherent versions) {effective : Version}
    {table : PublishedTable} (hi : (race.callers i).progress = .built effective table) :
    (versions i).effective? = some effective ∧ PacketTable.build effective = .ok table.table ∧
      table.number < race.tables := by
  have hplace := h.place i
  rw [Caller.At, hi, h.version] at hplace
  exact hplace

theorem Coherent.lt_of_has (h : race.Coherent versions) {a : Option ι} {p : PublishedTable}
    (ha : race.Has a p) : p.number < race.tables := by
  cases a with
  | none =>
    obtain ⟨w, hw⟩ := ha
    exact h.numbered.lt hw
  | some i =>
    obtain ⟨effective, hi⟩ := Progress.eq_of_hand? ha
    exact (h.place_built hi).2.2

theorem Coherent.outcome_ok (h : race.Coherent versions) {p : PublishedTable}
    (hi : race.outcome? i = some (.ok p)) :
    ∃ effective, (versions i).effective? = some effective ∧ race.registry.find? effective = some p := by
  have hplace := h.place i
  rw [Caller.At, Progress.eq_of_outcome? hi, h.version] at hplace
  exact hplace

theorem Coherent.outcome_error (h : race.Coherent versions) {fault : Fault}
    (hi : race.outcome? i = some (.error fault)) :
    (versions i).resolve? = none ∧ fault = .unsupportedVersion (versions i) := by
  have hplace := h.place i
  rw [Caller.At, Progress.eq_of_outcome? hi, h.version] at hplace
  exact hplace

variable [DecidableEq ι]

/-- A caller moves on. What is published was so before or comes from its hand, what is in its hand is
new, and nothing that is published or finished is lost. -/
theorem Coherent.put (h : race.Coherent versions) {r : Registry} {n : Nat} {c : Caller}
    (hnumbered : r.Numbered n) (hle : race.tables ≤ n)
    (hfind : ∀ w p, race.registry.find? w = some p → r.find? w = some p)
    (hpublished : ∀ w p, r.find? w = some p → race.Has none p ∨ race.Has (some i) p)
    (hversion : c.version = (race.callers i).version) (hplace : c.At r n)
    (hhand : ∀ p, c.progress.hand? = some p → race.tables ≤ p.number)
    (hfinished : (race.outcome? i).isSome → c.progress.outcome?.isSome)
    (hwanted : ∀ w ∈ r.versions, w ∈ race.registry.versions ∨
      c.progress.outcome?.isSome ∧ c.version.effective? = some w) :
    (race.put i (r, n, c)).Coherent versions where
  numbered := hnumbered
  version j := by
    by_cases hj : j = i
    · subst hj
      rw [callers_put_self, hversion, h.version]
    · rw [callers_put_of_ne race hj, h.version]
  place j := by
    by_cases hj : j = i
    · subst hj
      rw [callers_put_self]
      exact hplace
    · rw [callers_put_of_ne race hj]
      exact (h.place j).mono hfind hle
  apart {a b p q} ha hb hnumber := by
    -- A table has stayed where it was, or was published by the caller, or is new in its hand.
    have hcases {a : Option ι} {p : PublishedTable} (ha : (race.put i (r, n, c)).Has a p) :
        (a ≠ some i ∧ race.Has a p) ∨ (a = none ∧ race.Has (some i) p) ∨
          (a = some i ∧ race.tables ≤ p.number) := by
      cases a with
      | none =>
        obtain ⟨w, hw⟩ := ha
        rcases hpublished w p hw with hbefore | hcaller
        · exact .inl ⟨nofun, hbefore⟩
        · exact .inr (.inl ⟨rfl, hcaller⟩)
      | some j =>
        by_cases hj : j = i
        · subst hj
          rw [Has, callers_put_self] at ha
          exact .inr (.inr ⟨rfl, hhand p ha⟩)
        · rw [Has, callers_put_of_ne race hj] at ha
          exact .inl ⟨by simpa using hj, ha⟩
    rcases hcases ha with ⟨hne, hp⟩ | ⟨rfl, hp⟩ | ⟨rfl, hp⟩ <;>
      rcases hcases hb with ⟨hne', hq⟩ | ⟨rfl, hq⟩ | ⟨rfl, hq⟩
    · exact h.apart hp hq hnumber
    · exact absurd (h.apart hp hq hnumber) hne
    · exact absurd (h.lt_of_has hp) (by omega)
    · exact absurd (h.apart hp hq hnumber).symm hne'
    · rfl
    · exact absurd (h.lt_of_has hp) (by omega)
    · exact absurd (h.lt_of_has hq) (by omega)
    · exact absurd (h.lt_of_has hq) (by omega)
    · rfl
  wanted {w} hw := by
    rw [hversion, h.version] at hwanted
    rcases hwanted w hw with hearlier | ⟨hdone, heffective⟩
    · obtain ⟨j, hdone, heffective⟩ := h.wanted hearlier
      refine ⟨j, ?_, heffective⟩
      by_cases hj : j = i
      · subst hj
        rw [outcome?, callers_put_self]
        exact hfinished hdone
      · rw [outcome?, callers_put_of_ne race hj]
        exact hdone
    · refine ⟨i, ?_, heffective⟩
      rw [outcome?, callers_put_self]
      exact hdone

/-- A caller with nothing in its hand moves on. -/
theorem Coherent.move (h : race.Coherent versions) {c : Caller}
    (hversion : c.version = (race.callers i).version) (hplace : c.At race.registry race.tables)
    (hhand : c.progress.hand? = none)
    (hfinished : (race.outcome? i).isSome → c.progress.outcome?.isSome) :
    (race.put i (race.registry, race.tables, c)).Coherent versions :=
  h.put h.numbered (Nat.le_refl _) (fun _ _ hw => hw) (fun w _ hw => .inl ⟨w, hw⟩) hversion hplace
    (by simp [hhand]) hfinished fun _ hw => .inl hw

/-- A new table has a number that none before it has. -/
theorem Coherent.build (h : race.Coherent versions) {effective : Version} {table : PacketTable}
    (hi : (race.callers i).progress = .missed effective)
    (hbuild : PacketTable.build effective = .ok table) :
    (race.put i (race.registry, race.tables + 1, { race.callers i with
      progress := .built effective ⟨race.tables, table⟩ })).Coherent versions := by
  have heffective : (race.callers i).version.effective? = some effective := by
    have hplace := h.place i
    rw [Caller.At, hi] at hplace
    exact hplace
  refine h.put (h.numbered.mono (Nat.le_succ _)) (Nat.le_succ _) (fun _ _ hw => hw)
    (fun w _ hw => .inl ⟨w, hw⟩) rfl ⟨heffective, hbuild, Nat.lt_succ_self _⟩ ?_
    (by simp [outcome?, hi, Progress.outcome?]) fun _ hw => .inl hw
  intro p hp
  obtain rfl := Option.some.inj hp
  exact Nat.le_refl _

/-- What a caller offers is published, or the table that is there already is what it gets. -/
theorem Coherent.keep (h : race.Coherent versions) {effective : Version} {table : PublishedTable}
    (hi : (race.callers i).progress = .built effective table) :
    (race.put i ((race.registry.keep effective table).2, race.tables, { race.callers i with
      progress := .finished (.ok (race.registry.keep effective table).1) })).Coherent versions := by
  obtain ⟨heffective, hbuild, hlt⟩ := h.place_built hi
  rw [← h.version i] at heffective
  have hhand : race.Has (some i) table := by
    rw [Has, hi]
    rfl
  have hnew : ∀ w p, race.registry.find? w = some p → p.number ≠ table.number := by
    intro w p hw hnumber
    have hpublished : race.Has none p := ⟨w, hw⟩
    have hplace := h.apart hpublished hhand hnumber
    contradiction
  refine h.put (h.numbered.keep hbuild hlt hnew) (Nat.le_refl _)
    (fun w p hw => find?_keep_of_some _ _ hw) ?_ rfl
    ⟨effective, heffective, find?_keep_self _ _ _⟩ nofun (fun _ => rfl) ?_
  · intro w p hw
    rcases of_find?_keep hw with hw | ⟨-, rfl⟩
    · exact .inl ⟨w, hw⟩
    · exact .inr hhand
  · intro w hw
    rcases mem_versions_keep.mp hw with hw | rfl
    · exact .inl hw
    · exact .inr ⟨rfl, heffective⟩

theorem Coherent.step (h : race.Coherent versions) (i : ι) : (race.step i).Coherent versions := by
  have hadvance := advances_advance race.registry race.tables (race.callers i)
  unfold Race.step
  generalize (race.callers i).advance race.registry race.tables = result at hadvance
  have hnone (hasked : (race.callers i).progress = .asked) : race.outcome? i = none := by
    rw [outcome?, hasked]
    rfl
  cases hadvance with
  | refused hasked hv => exact h.move rfl ⟨hv, rfl⟩ rfl (by simp [hnone hasked])
  | found hasked hv hfind => exact h.move rfl ⟨_, hv, hfind⟩ rfl (by simp [hnone hasked])
  | missed hasked hv => exact h.move rfl hv rfl (by simp [hnone hasked])
  | built hmissed hbuild => exact h.build hmissed hbuild
  | kept hbuilt => exact h.keep hbuilt
  | rested hfinished => exact h.move rfl (h.place i) (by rw [hfinished]; rfl) id

/-! ### Whole runs -/

theorem Coherent.run (h : race.Coherent versions) (schedule : List ι) :
    (race.run schedule).Coherent versions := by
  induction schedule generalizing race with
  | nil => exact h
  | cons i schedule ih => exact ih (h.step i)

/-- What is published stays. -/
theorem find?_run {w : Version} {p : PublishedTable} (h : race.registry.find? w = some p)
    (schedule : List ι) : (race.run schedule).registry.find? w = some p := by
  induction schedule generalizing race with
  | nil => exact h
  | cons i schedule ih => exact ih (find?_advance h)

theorem left_run (race : Race ι) (schedule : List ι) (i : ι) :
    ((race.run schedule).callers i).progress.left ≤
      (race.callers i).progress.left - schedule.count i := by
  induction schedule generalizing race with
  | nil => exact Nat.le_refl _
  | cons j schedule ih =>
    have hrest := ih (race.step j)
    by_cases hj : i = j
    · subst hj
      have hstep := left_advance race.registry race.tables (race.callers i)
      rw [Race.step, callers_put_self] at hrest
      rw [List.count_cons_self]
      exact Nat.le_trans hrest (by omega)
    · rw [Race.step, callers_put_of_ne race hj] at hrest
      rw [List.count_cons_of_ne (Ne.symm hj)]
      exact hrest

/-- A caller whose steps nobody interrupts gets what a request for the table gives. -/
theorem run_uninterrupted {v : Version} (hi : race.callers i = ⟨v, .asked, []⟩)
    (htables : race.tables = race.registry.published.length) :
    (race.run [i, i, i]).callers i =
        ⟨v, .finished (race.registry.table v).outcome, (race.registry.table v).warnings⟩ ∧
      (race.run [i, i, i]).registry = (race.registry.table v).registry := by
  have hrun : race.run [i, i, i] = ((race.step i).step i).step i := rfl
  rw [hrun]
  rcases hv : v.resolve? with _ | resolution
  · simp [step, put, Caller.advance, hi, resolution_of_unsupported hv, table_of_unsupported hv]
  · rcases hfind : race.registry.find? resolution.effective with _ | published
    · simp [step, put, Caller.advance, hi, htables, hfind, resolution_of_resolves hv,
        PacketTable.build_eq, table_of_resolves hv (PacketTable.build_eq _), publish_eq_keep]
    · simp [step, put, Caller.advance, hi, hfind, resolution_of_resolves hv,
        table_of_resolves hv (PacketTable.build_eq _), publish_eq_keep, keep_of_some hfind]

/-- However the steps of the callers come after one another, a caller finishes with its third. It then
has the table that is published for its effective version, the same as every other caller with that
effective version and no caller with another, or its version is not supported. What is published
stays, and there is one table for each effective version of a caller that has finished. -/
theorem run_publishes_once (versions : ι → Version) (schedule : List ι) :
    let race := (start versions).run schedule
    (∀ i, 3 ≤ schedule.count i → ∃ outcome, race.outcome? i = some outcome) ∧
      (∀ i outcome, race.outcome? i = some outcome →
        match (versions i).effective? with
        | none => outcome = .error (.unsupportedVersion (versions i))
        | some effective => ∃ p, outcome = .ok p ∧ PacketTable.build effective = .ok p.table ∧
            race.registry.find? effective = some p) ∧
      (∀ i j p q, race.outcome? i = some (.ok p) → race.outcome? j = some (.ok q) →
        if (versions i).effective? = (versions j).effective? then p = q else p.number ≠ q.number) ∧
      (∀ later w p, race.registry.find? w = some p →
        (race.run later).registry.find? w = some p) ∧
      race.registry.versions.Nodup ∧
      ∀ w, w ∈ race.registry.versions ↔
        ∃ i, (race.outcome? i).isSome ∧ (versions i).effective? = some w := by
  intro race
  have hrace : race.Coherent versions := (coherent_start versions).run schedule
  refine ⟨fun i hcount => ?_, fun i outcome hi => ?_, fun i j p q hi hj => ?_,
    fun later w p hw => find?_run hw later, hrace.numbered.nodup, fun w => ⟨hrace.wanted, ?_⟩⟩
  · have hleft : (race.callers i).progress.left ≤ 3 - schedule.count i := left_run _ schedule i
    exact Progress.outcome?_of_left (by omega)
  · rcases outcome with fault | p
    · obtain ⟨hnone, rfl⟩ := hrace.outcome_error hi
      rw [Version.effective?, hnone]
      rfl
    · obtain ⟨effective, hv, hfind⟩ := hrace.outcome_ok hi
      rw [hv]
      exact ⟨p, rfl, hrace.numbered.sound _ _ hfind, hfind⟩
  · obtain ⟨effective, hv, hfind⟩ := hrace.outcome_ok hi
    obtain ⟨effective', hw, hfind'⟩ := hrace.outcome_ok hj
    rw [hv, hw]
    split
    · rename_i hsame
      rw [Option.some.inj hsame, hfind'] at hfind
      exact (Option.some.inj hfind).symm
    · rename_i hother
      exact fun hnumber => hother (congrArg some (hrace.numbered.inj hfind hfind' hnumber))
  · rintro ⟨i, hdone, hv⟩
    obtain ⟨fault | p, hi⟩ := Option.isSome_iff_exists.mp hdone
    · rw [Version.effective?, (hrace.outcome_error hi).1] at hv
      contradiction
    · obtain ⟨effective, hv', hfind⟩ := hrace.outcome_ok hi
      obtain rfl : effective = w := Option.some.inj (hv'.symm.trans hv)
      by_contra hmem
      rw [find?_eq_none_iff.mpr hmem] at hfind
      contradiction

/-- Two callers miss the table and both build one. -/
theorem run_publishes_once_both_build :
    let versions : Bool → Version := fun first => if first then ⟨758⟩ else ⟨757⟩
    let race := (start versions).run [true, false, true, false, false, true]
    race.tables = 2 ∧ race.registry.versions = [⟨757⟩] ∧
      ∃ p q, race.outcome? true = some (.ok p) ∧ race.outcome? false = some (.ok q) ∧ p = q := by
  intro versions race
  obtain ⟨-, -, hsame, -⟩ := run_publishes_once versions [true, false, true, false, false, true]
  have hfirst : ∃ p, race.outcome? true = some (.ok p) := ⟨_, rfl⟩
  have hsecond : ∃ q, race.outcome? false = some (.ok q) := ⟨_, rfl⟩
  obtain ⟨p, hp⟩ := hfirst
  obtain ⟨q, hq⟩ := hsecond
  have hshared := hsame true false p q hp hq
  rw [if_pos (by decide)] at hshared
  exact ⟨rfl, rfl, p, q, hp, hq, hshared⟩

end Race

end MinecraftWire.Registry
