import Mathlib.Data.Finset.Card
import MinecraftWire.Proofs.Registry

/-! What a registry has gone through. Requests of every kind follow each other on one registry; all
that they leave behind is a table for each effective version that some request needed a table of.
Which requests came before is not to be seen in a table, and each effective version has one table
throughout. -/

namespace MinecraftWire

/-- What a registry can be asked. -/
inductive Request where
  | resolution (v : Version)
  | table (v : Version)
  | resolve (v : Version) (state : ConnectionState) (direction : Direction)
  | lookup (v : Version) (state : ConnectionState) (direction : Direction) (id : Int32)
  | cached

/-- What a request can be answered with. -/
inductive Reply where
  | resolution (resolution : Version.Resolution)
  | table (published : PublishedTable)
  | set (set : PacketSet)
  | type (type : PacketType)
  | count (n : Nat)

namespace Request

def version? : Request → Option Version
  | .resolution v | .table v | .resolve v _ _ | .lookup v _ _ _ => some v
  | .cached => none

/-- The effective version of which the request needs the table. -/
def served? : Request → Option Version
  | .table v | .resolve v _ _ | .lookup v _ _ _ => v.effective?
  | .resolution _ | .cached => none

/-- How the version of the request resolves, if it is to the nearest older one. -/
def nearest? (request : Request) : Option Version.Resolution :=
  (request.version?.bind Version.resolve?).filter (·.fallback = .nearest)

end Request

namespace Registry

def Answer.map {α β : Type} (f : α → β) (answer : Answer α) : Answer β :=
  ⟨answer.outcome.map f, answer.warnings, answer.registry⟩

def perform (r : Registry) : Request → Answer Reply
  | .resolution v => (r.resolution v).map .resolution
  | .table v => (r.table v).map .table
  | .resolve v state direction => (r.resolve v state direction).map .set
  | .lookup v state direction id => (r.lookup v state direction id).map .type
  | .cached => ⟨.ok (.count r.cached), [], r⟩

/-- A new registry after some requests. -/
def after (requests : List Request) : Registry :=
  requests.foldl (fun r request => (r.perform request).registry) empty

/-- The version was asked for in the course of the requests, and its table was given. -/
def Handed (requests : List Request) (v : Version) (p : PublishedTable) : Prop :=
  ∃ earlier later, requests = earlier ++ .table v :: later ∧
    ((after earlier).table v).outcome = .ok p

/-! ### One request -/

/-- The registry when an effective version has its table. -/
def serve (r : Registry) (effective : Version) : Registry :=
  (r.publish effective ⟨effective, PacketTable.entriesOf (PacketType.declared effective)⟩).2

section Table

variable (r : Registry) (v : Version)

theorem table_cases :
    (v.resolve? = none ∧ r.table v = ⟨.error (.unsupportedVersion v), [], r⟩) ∨
    ∃ resolution p, v.resolve? = some resolution ∧
      (r.serve resolution.effective).find? resolution.effective = some p ∧
      r.table v = ⟨.ok p, (r.resolution v).warnings, r.serve resolution.effective⟩ := by
  rcases hv : v.resolve? with _ | resolution
  · exact .inl ⟨rfl, table_of_unsupported hv r⟩
  · refine .inr ⟨resolution, _, rfl, ?_, table_of_resolves hv (PacketTable.build_eq _) r⟩
    rw [serve, publish_eq_keep]
    exact find?_keep_self _ _ _

theorem registry_table : (r.table v).registry = v.effective?.elim r r.serve := by
  rcases r.table_cases v with ⟨hv, htable⟩ | ⟨resolution, p, hv, -, htable⟩
  · rw [htable, Version.effective?, hv]
    rfl
  · rw [htable, Version.effective?, hv]
    rfl

theorem warnings_resolution : (r.resolution v).warnings =
    (v.resolve?.filter (·.fallback = .nearest)).toList := by
  rcases hv : v.resolve? with _ | resolution
  · rw [resolution_of_unsupported hv]
    rfl
  · rw [resolution_of_resolves hv]
    by_cases hnearest : resolution.fallback = .nearest <;> simp [Option.filter, hnearest]

theorem warnings_table : (r.table v).warnings = (r.resolution v).warnings := by
  rcases r.table_cases v with ⟨hv, htable⟩ | ⟨resolution, p, hv, -, htable⟩
  · rw [htable, resolution_of_unsupported hv]
  · rw [htable]

variable {r v} in
/-- A version without a table is one that does not resolve. -/
theorem outcome_table_eq_error_iff {fault : Fault} : (r.table v).outcome = .error fault ↔
    v.resolve? = none ∧ fault = .unsupportedVersion v := by
  rcases r.table_cases v with ⟨hv, htable⟩ | ⟨resolution, p, hv, -, htable⟩
  · simp [htable, hv, eq_comm]
  · simp [htable, hv]

end Table

theorem warnings_perform (r : Registry) (request : Request) :
    (r.perform request).warnings = request.nearest?.toList := by
  cases request with
  | resolution v => exact r.warnings_resolution v
  | table v => exact (r.warnings_table v).trans (r.warnings_resolution v)
  | resolve v state direction => exact (r.warnings_table v).trans (r.warnings_resolution v)
  | lookup v state direction id => exact (r.warnings_table v).trans (r.warnings_resolution v)
  | cached => rfl

/-- All that a request leaves behind is the table it needed. -/
theorem registry_perform (r : Registry) (request : Request) :
    (r.perform request).registry = request.served?.elim r r.serve := by
  cases request with
  | resolution v =>
    show (r.resolution v).registry = r
    rcases hv : v.resolve? with _ | resolution
    · rw [resolution_of_unsupported hv]
    · rw [resolution_of_resolves hv]
  | table v => exact r.registry_table v
  | resolve v state direction => exact r.registry_table v
  | lookup v state direction id => exact r.registry_table v
  | cached => rfl

theorem of_map_eq_error {α β : Type} {x : Except Fault α} {f : α → β} {fault : Fault}
    (h : x.map f = .error fault) : x = .error fault := by
  cases x with
  | error fault' => exact congrArg _ (Except.error.inj h)
  | ok a => contradiction

/-- A packet type that is not found is not a matter of the version. -/
theorem lookup_ne_unsupported (set : PacketSet) (id : Int32) (v : Version) :
    set.lookup id ≠ .error (.unsupportedVersion v) := by
  unfold PacketSet.lookup
  cases set.get? id <;> simp

/-- A request that fails because a version is not supported needs no table. -/
theorem served?_of_unsupported {r : Registry} {request : Request} {v : Version}
    (h : (r.perform request).outcome = .error (.unsupportedVersion v)) : request.served? = none := by
  have hnone {w : Version} (hw : (r.table w).outcome = .error (.unsupportedVersion v)) :
      w.effective? = none := by
    rw [Version.effective?, (outcome_table_eq_error_iff.mp hw).1]
    rfl
  cases request with
  | resolution w => rfl
  | cached => rfl
  | table w => exact hnone (of_map_eq_error h)
  | resolve w state direction => exact hnone (of_map_eq_error (of_map_eq_error h))
  | lookup w state direction id =>
    have hlookup : ((r.table w).outcome.map (·.table.set state direction)).bind (·.lookup id) =
        .error (.unsupportedVersion v) := of_map_eq_error h
    rcases htable : (r.table w).outcome with fault | p
    · rw [htable] at hlookup
      obtain rfl : fault = .unsupportedVersion v := Except.error.inj hlookup
      exact hnone htable
    · rw [htable] at hlookup
      exact absurd hlookup (lookup_ne_unsupported _ id v)

/-! ### Many requests -/

section Serve

variable {r : Registry} {v w : Version} {p : PublishedTable}

theorem Numbered.serve (h : r.Numbered r.published.length) (v : Version) :
    (r.serve v).Numbered (r.serve v).published.length :=
  h.publish (PacketTable.build_eq v)

theorem find?_serve (v : Version) (h : r.find? w = some p) : (r.serve v).find? w = some p := by
  rw [Registry.serve, publish_eq_keep]
  exact find?_keep_of_some _ v h

theorem mem_versions_serve : w ∈ (r.serve v).versions ↔ w ∈ r.versions ∨ w = v := by
  rw [Registry.serve, publish_eq_keep]
  exact mem_versions_keep

end Serve

theorem after_append (earlier later : List Request) :
    after (earlier ++ later) = (later.filterMap Request.served?).foldl serve (after earlier) := by
  rw [after, List.foldl_append, ← after]
  induction later generalizing earlier with
  | nil => rfl
  | cons request later ih =>
    have hstep : ((after earlier).perform request).registry = after (earlier ++ [request]) := by
      rw [after, after, List.foldl_append]
      rfl
    rw [List.foldl_cons, hstep, ih, ← hstep, registry_perform]
    cases hserved : request.served? <;> simp [hserved]

theorem after_eq (requests : List Request) :
    after requests = (requests.filterMap Request.served?).foldl serve empty :=
  after_append [] requests

theorem numbered_after (requests : List Request) :
    (after requests).Numbered (after requests).published.length := by
  rw [after_eq]
  exact List.foldlRecOn (motive := fun r => r.Numbered r.published.length) _ serve (numbered_empty 0)
    fun r h v _ => h.serve v

theorem mem_versions_foldl_serve {r : Registry} {served : List Version} {w : Version} :
    w ∈ (served.foldl serve r).versions ↔ w ∈ r.versions ∨ w ∈ served := by
  induction served generalizing r with
  | nil => simp
  | cons v served ih => rw [List.foldl_cons, ih, mem_versions_serve, List.mem_cons, or_assoc]

/-- A table that was given is still that of its effective version. -/
theorem Handed.find? {requests : List Request} {v : Version} {p : PublishedTable}
    (h : Handed requests v p) :
    ∃ effective, v.effective? = some effective ∧ (after requests).find? effective = some p := by
  obtain ⟨earlier, later, rfl, houtcome⟩ := h
  rcases (after earlier).table_cases v with ⟨-, htable⟩ | ⟨resolution, p', hv, hfind, htable⟩
  · rw [htable] at houtcome
    contradiction
  · rw [htable] at houtcome
    obtain rfl := Except.ok.inj houtcome
    have heffective : v.effective? = some resolution.effective := by
      rw [Version.effective?, hv]
      rfl
    have hserved : (Request.table v).served? = some resolution.effective := heffective
    refine ⟨resolution.effective, heffective, ?_⟩
    rw [after_append, List.filterMap_cons_some hserved, List.foldl_cons]
    exact List.foldlRecOn (motive := fun r => r.find? resolution.effective = some p') _ serve hfind
      fun r h w _ => find?_serve w h

/-- After any requests there is one table for each effective version that one of them needed a table
of. Tables that were given are the same exactly if they were given for the same effective version,
and each is what is built from that version. Only a version that does not resolve fails to get a
table, which changes nothing; and a version that resolves to the nearest older one is warned about
once with each request. -/
theorem after_spec (requests : List Request) :
    (after requests).cached = (requests.filterMap Request.served?).toFinset.card ∧
      (∀ v w p q, Handed requests v p → Handed requests w q →
        (p.number = q.number ↔ v.effective? = w.effective?)) ∧
      (∀ v p, Handed requests v p →
        ∃ effective, v.effective? = some effective ∧ PacketTable.build effective = .ok p.table) ∧
      (∀ v fault, ((after requests).table v).outcome = .error fault ↔
        v.resolve? = none ∧ fault = .unsupportedVersion v) ∧
      ∀ request,
        (∀ v, ((after requests).perform request).outcome = .error (.unsupportedVersion v) →
          ((after requests).perform request).registry = after requests) ∧
        ((after requests).perform request).warnings = request.nearest?.toList := by
  have hnumbered := numbered_after requests
  refine ⟨?_, fun v w p q hp hq => ?_, fun v p hp => ?_, fun v fault => outcome_table_eq_error_iff,
    fun request => ⟨fun v hv => ?_, warnings_perform _ request⟩⟩
  · have hsame : (after requests).versions.toFinset =
        (requests.filterMap Request.served?).toFinset := by
      ext w
      rw [List.mem_toFinset, List.mem_toFinset, after_eq, mem_versions_foldl_serve]
      simp [versions, empty]
    rw [← hsame, List.toFinset_card_of_nodup hnumbered.nodup, versions, List.length_map]
    rfl
  · obtain ⟨effective, hv, hfind⟩ := hp.find?
    obtain ⟨effective', hw, hfind'⟩ := hq.find?
    rw [hv, hw, Option.some.injEq]
    refine ⟨hnumbered.inj hfind hfind', ?_⟩
    rintro rfl
    rw [hfind] at hfind'
    rw [Option.some.inj hfind']
  · obtain ⟨effective, hv, hfind⟩ := hp.find?
    exact ⟨effective, hv, hnumbered.sound _ _ hfind⟩
  · rw [registry_perform, served?_of_unsupported hv]
    rfl

/-- A version shares the table of the older one that it agrees with, a lookup in vain has its version
served all the same, and a version that is not supported leaves no trace. -/
theorem after_spec_shared_table :
    let requests : List Request :=
      [.table ⟨758⟩, .lookup ⟨764⟩ .status .serverbound 0x7F, .table ⟨4⟩, .table ⟨757⟩]
    (after requests).cached = 2 ∧
      ∃ p q, Handed requests ⟨758⟩ p ∧ Handed requests ⟨757⟩ q ∧ p.number = q.number := by
  intro requests
  obtain ⟨hcached, hsame, -⟩ := after_spec requests
  have hfirst : Handed requests ⟨758⟩ ⟨0, ⟨⟨757⟩, PacketTable.entriesOf (PacketType.declared ⟨757⟩)⟩⟩ :=
    ⟨[], requests.drop 1, rfl, rfl⟩
  have hlast : Handed requests ⟨757⟩ ⟨0, ⟨⟨757⟩, PacketTable.entriesOf (PacketType.declared ⟨757⟩)⟩⟩ :=
    ⟨requests.take 3, [], rfl, rfl⟩
  exact ⟨hcached.trans (by decide), _, _, hfirst, hlast, (hsame _ _ _ _ hfirst hlast).mpr (by decide)⟩

end Registry

end MinecraftWire
