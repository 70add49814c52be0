import Mathlib.Data.List.Nodup
import Mathlib.Data.List.Pairwise
import MinecraftWire.Proofs.Registry

/-! Tables of any packet types. Two types clash if both take one id of one state and direction. A
list without clashes has a table, whose sets hold what was listed for them, in whatever order it was
listed; otherwise the table is refused for the first type that clashes with one before it, in the
first of its directions in which it does. -/

namespace MinecraftWire

namespace PacketType

/-- The type takes the id of `t` in its state and in the given direction. -/
def Occupies (u : PacketType) (d : Direction) (t : PacketType) : Prop :=
  u.id = t.id ∧ u.state = t.state ∧ d ∈ u.directions

/-- In no direction of both do the two take one id of one state. -/
def Compatible (u t : PacketType) : Prop :=
  ∀ d ∈ t.directions, ¬ u.Occupies d t

instance (u : PacketType) (d : Direction) (t : PacketType) : Decidable (u.Occupies d t) :=
  inferInstanceAs (Decidable (_ ∧ _ ∧ _))

instance (u t : PacketType) : Decidable (u.Compatible t) :=
  inferInstanceAs (Decidable (∀ d ∈ t.directions, ¬ u.Occupies d t))

theorem Compatible.symm {u t : PacketType} (h : u.Compatible t) : t.Compatible u :=
  fun d hd ⟨hid, hstate, hdirection⟩ => h d hdirection ⟨hid.symm, hstate.symm, hd⟩

instance : Std.Symm Compatible := ⟨fun _ _ => Compatible.symm⟩

/-- Among types that are compatible only one takes an id of a state and direction. -/
theorem eq_of_occupies {types : List PacketType} (h : types.Pairwise Compatible)
    {u u' t : PacketType} {d : Direction} (hu : u ∈ types) (hu' : u' ∈ types)
    (hoccupies : u.Occupies d t) (hoccupies' : u'.Occupies d t) : u = u' := by
  obtain ⟨hid, hstate, hd⟩ := hoccupies
  obtain ⟨hid', hstate', hd'⟩ := hoccupies'
  refine Classical.byContradiction fun hne => ?_
  exact h.forall hu hu' hne d hd' ⟨hid.trans hid'.symm, hstate.trans hstate'.symm, hd⟩

end PacketType

/-! ### Sets -/

namespace PacketSet

/-- Two sets that find the same types and list them alike. -/
structure Alike (a b : PacketSet) : Prop where
  version : a.version = b.version
  state : a.state = b.state
  direction : a.direction = b.direction
  get? : ∀ id, a.get? id = b.get? id
  sorted : a.sorted = b.sorted

/-- Under ids that are all different there is one ascending order. -/
theorem sorted_eq_of_perm {a b : PacketSet} (h : a.types.Perm b.types)
    (hids : ∀ t ∈ a.types, ∀ u ∈ a.types, t.id = u.id → t = u) : a.sorted = b.sorted := by
  have hascending : ∀ set : PacketSet, set.sorted.Pairwise fun t u => t.id ≤ u.id := fun set =>
    (List.pairwise_mergeSort (fun t u w htu huw => by
        rw [decide_eq_true_iff] at *
        exact Int32.le_trans htu huw)
      (fun t u => by simpa using Int32.le_total t.id u.id) set.types).imp of_decide_eq_true
  have hsorted : ∀ set : PacketSet, set.sorted.Perm set.types := fun set =>
    List.mergeSort_perm set.types _
  refine List.Perm.eq_of_pairwise (fun t u ht hu htu hut => ?_) (hascending a) (hascending b)
    ((hsorted a).trans (h.trans (hsorted b).symm))
  exact hids t ((hsorted a).mem_iff.mp ht) u (h.mem_iff.mpr ((hsorted b).mem_iff.mp hu))
    (Int32.le_antisymm htu hut)

end PacketSet

namespace PacketTable

open PacketType (Occupies Compatible eq_of_occupies)

/-- The first type of a list that clashes with one before it, and the first of its directions in
which it does; `first` is the type before it that has its place there. -/
def FirstClash (types : List PacketType) (t : PacketType) (d : Direction) (first : PacketType) :
    Prop :=
  ∃ before after ds ds', types = before ++ t :: after ∧ t.directions = ds ++ d :: ds' ∧
    before.Pairwise Compatible ∧ (∀ d' ∈ ds, ∀ u ∈ before, ¬ u.Occupies d' t) ∧ first ∈ before ∧
    first.Occupies d t

/-! ### Registration -/

variable {before types : List PacketType} {done ds : List Direction} {d : Direction}
  {t first : PacketType}

/-- While a type is registered in some of its directions, what has its place in another was
registered before it. -/
theorem occupies_of_mem (hd : d ∉ done) {e : Direction × PacketType}
    (he : e ∈ entriesOf before ++ done.map fun d => (d, t))
    (hplace : (e.1 == d && e.2.state == t.state && e.2.id == t.id) = true) :
    e.2 ∈ before ∧ e.2.Occupies d t := by
  simp only [Bool.and_eq_true, beq_iff_eq] at hplace
  obtain ⟨⟨rfl, hstate⟩, hid⟩ := hplace
  rcases List.mem_append.mp he with he | he
  · obtain ⟨u, hu, he⟩ := List.mem_flatMap.mp he
    obtain ⟨d', hd', rfl⟩ := List.mem_map.mp he
    exact ⟨hu, hid, hstate, hd'⟩
  · obtain ⟨d', hd', rfl⟩ := List.mem_map.mp he
    exact absurd hd' hd

theorem holder?_eq_none (hd : d ∉ done) (hfree : ∀ u ∈ before, ¬ u.Occupies d t) :
    holder? (entriesOf before ++ done.map fun d => (d, t)) d t = none := by
  rw [holder?, Option.map_eq_none_iff, List.find?_eq_none]
  intro e he hplace
  obtain ⟨hbefore, hoccupies⟩ := occupies_of_mem hd he hplace
  exact hfree e.2 hbefore hoccupies

theorem holder?_eq_some (hbefore : before.Pairwise Compatible) (hd : d ∉ done)
    (hfirst : first ∈ before) (hoccupies : first.Occupies d t) :
    holder? (entriesOf before ++ done.map fun d => (d, t)) d t = some first := by
  obtain ⟨hid, hstate, hdirection⟩ := hoccupies
  have hmem : (d, first) ∈ entriesOf before ++ done.map fun d => (d, t) :=
    List.mem_append_left _ (List.mem_flatMap.mpr ⟨first, hfirst, List.mem_map_of_mem hdirection⟩)
  rcases hholder : holder? (entriesOf before ++ done.map fun d => (d, t)) d t with _ | u
  · rw [holder?, Option.map_eq_none_iff, List.find?_eq_none] at hholder
    exact absurd (hholder _ hmem) (by simp [hid, hstate])
  · obtain ⟨e, he, rfl⟩ := Option.map_eq_some_iff.mp hholder
    have hfound := List.find?_some he
    obtain ⟨hu, hplace⟩ := occupies_of_mem hd (List.mem_of_find?_eq_some he) hfound
    rw [eq_of_occupies hbefore hu hfirst hplace ⟨hid, hstate, hdirection⟩]

/-- Directions that are free are taken one after the other. -/
theorem register_of_free (done : List Direction) (hnodup : (done ++ ds).Nodup)
    (hfree : ∀ d ∈ ds, ∀ u ∈ before, ¬ u.Occupies d t) (rest : List Direction) :
    register t (ds ++ rest) (entriesOf before ++ done.map fun d => (d, t)) =
      register t rest (entriesOf before ++ (done ++ ds).map fun d => (d, t)) := by
  induction ds generalizing done with
  | nil => rw [List.append_nil, List.nil_append]
  | cons d ds ih =>
    rw [List.forall_mem_cons] at hfree
    have hd : d ∉ done := fun hmem =>
      (List.nodup_append.mp hnodup).2.2 d hmem d List.mem_cons_self rfl
    have hnext := ih (done ++ [d]) (by simpa using hnodup) hfree.2
    rw [List.cons_append, register, holder?_eq_none hd hfree.1]
    simpa using hnext

/-- A type that clashes with none before it is registered in all its directions. -/
theorem register_eq_ok (hnodup : t.directions.Nodup) (hfree : ∀ u ∈ before, u.Compatible t) :
    register t t.directions (entriesOf before) = .ok (entriesOf (before ++ [t])) := by
  have h := register_of_free [] hnodup (fun d hd u hu => hfree u hu d hd) []
  simpa [register, entriesOf] using h

theorem register_eq_error {ds' : List Direction} (hnodup : t.directions.Nodup)
    (hds : t.directions = ds ++ d :: ds') (hbefore : before.Pairwise Compatible)
    (hfree : ∀ d' ∈ ds, ∀ u ∈ before, ¬ u.Occupies d' t) (hfirst : first ∈ before)
    (hoccupies : first.Occupies d t) : register t t.directions (entriesOf before) =
      .error (.duplicatePacket t.id t.state d first.name t.name) := by
  rw [hds] at hnodup
  have hd : d ∉ ds := fun hmem =>
    (List.nodup_append.mp hnodup).2.2 d hmem d List.mem_cons_self rfl
  have h := register_of_free [] (hnodup.sublist (List.sublist_append_left _ _)) hfree
    (d :: ds')
  rw [hds]
  simpa [register, holder?_eq_some hbefore hd hfirst hoccupies] using h

/-- Types without clashes are registered one after the other. -/
theorem registerAll_append (before : List PacketType)
    (hdirections : ∀ t ∈ types, t.directions.Nodup) (h : (before ++ types).Pairwise Compatible)
    (rest : List PacketType) :
    registerAll (types ++ rest) (entriesOf before) =
      registerAll rest (entriesOf (before ++ types)) := by
  induction types generalizing before with
  | nil => rw [List.append_nil, List.nil_append]
  | cons t types ih =>
    rw [List.forall_mem_cons] at hdirections
    have hfree : ∀ u ∈ before, u.Compatible t := fun u hu =>
      h.rel_of_mem_append hu List.mem_cons_self
    have hnext := ih (before ++ [t]) hdirections.2 (by simpa using h)
    rw [List.cons_append, registerAll, register_eq_ok hdirections.1 hfree]
    simpa using hnext

theorem ofTypes_of_pairwise {v : Version} (hdirections : ∀ t ∈ types, t.directions.Nodup)
    (h : types.Pairwise Compatible) : ofTypes v types = .ok ⟨v, entriesOf types⟩ := by
  have hall := registerAll_append [] hdirections h []
  rw [List.append_nil] at hall
  exact congrArg (Except.map _) hall

theorem ofTypes_of_firstClash {v : Version} (hdirections : ∀ t ∈ types, t.directions.Nodup)
    (h : FirstClash types t d first) :
    ofTypes v types = .error (.duplicatePacket t.id t.state d first.name t.name) := by
  obtain ⟨before, after, ds, ds', rfl, hds, hbefore, hfree, hfirst, hoccupies⟩ := h
  rw [List.forall_mem_append, List.forall_mem_cons] at hdirections
  have hall := registerAll_append [] hdirections.1 hbefore (t :: after)
  rw [List.nil_append, registerAll,
    register_eq_error hdirections.2.1 hds hbefore hfree hfirst hoccupies] at hall
  exact congrArg (Except.map _) hall

theorem firstClash_of_not_compatible {after : List PacketType}
    (hbefore : before.Pairwise Compatible) (h : ¬ ∀ u ∈ before, u.Compatible t) :
    ∃ d first, FirstClash (before ++ t :: after) t d first := by
  rcases hfind : t.directions.find? fun d => before.any fun u => u.Occupies d t with _ | d
  · refine absurd (fun u hu d hd hoccupies => ?_) h
    have hfree := List.find?_eq_none.mp hfind d hd
    exact hfree (List.any_eq_true.mpr ⟨u, hu, decide_eq_true hoccupies⟩)
  · obtain ⟨hany, ds, ds', hds, hfree⟩ := List.find?_eq_some_iff_append.mp hfind
    obtain ⟨first, hfirst, hoccupies⟩ := List.any_eq_true.mp hany
    refine ⟨d, first, before, after, ds, ds', rfl, hds, hbefore, fun d' hd' u hu hoccupies' => ?_,
      hfirst, of_decide_eq_true hoccupies⟩
    have hany' : before.any (fun u => u.Occupies d' t) = true :=
      List.any_eq_true.mpr ⟨u, hu, decide_eq_true hoccupies'⟩
    simpa [hany'] using hfree d' hd'

/-- A list has no clashes, or a first one. -/
theorem pairwise_or_firstClash (types : List PacketType) :
    types.Pairwise Compatible ∨ ∃ t d first, FirstClash types t d first := by
  suffices h : ∀ before : List PacketType, before.Pairwise Compatible →
      (before ++ types).Pairwise Compatible ∨
        ∃ t d first, FirstClash (before ++ types) t d first from h [] .nil
  induction types with
  | nil => exact fun before hbefore => .inl (by rwa [List.append_nil])
  | cons t after ih =>
    intro before hbefore
    by_cases hfree : ∀ u ∈ before, u.Compatible t
    · have hnext : (before ++ [t]).Pairwise Compatible :=
        List.pairwise_append.mpr ⟨hbefore, List.pairwise_singleton _ _, fun u hu t' ht' =>
          List.mem_singleton.mp ht' ▸ hfree u hu⟩
      simpa using ih (before ++ [t]) hnext
    · exact .inr ⟨t, firstClash_of_not_compatible hbefore hfree⟩

/-! ### What the sets hold -/

/-- The packet sets of a table are those of a list of types: each type listed with a set's state and
direction stands in it, under its own id, and no other. -/
structure Holds (table : PacketTable) (v : Version) (types : List PacketType) : Prop where
  version : table.version = v
  types_eq : ∀ state d, (table.set state d).types =
    types.filter fun t => t.state = state ∧ d ∈ t.directions
  get?_iff : ∀ state d id t, (table.set state d).get? id = some t ↔
    t ∈ types ∧ t.state = state ∧ d ∈ t.directions ∧ t.id = id

/-- In each of its directions a type is entered once. -/
theorem entered_once (hnodup : t.directions.Nodup) (state : ConnectionState) (d : Direction) :
    ((t.directions.map fun d' => (d', t)).filter fun e =>
      e.1 == d && e.2.state == state).map (·.2) =
        [t].filter fun t => t.state = state ∧ d ∈ t.directions := by
  rw [List.filter_map, List.map_map]
  by_cases hstate : t.state = state
  · have hplace : (fun e : Direction × PacketType => e.1 == d && e.2.state == state) ∘
        (fun d' => (d', t)) = (· == d) := funext fun d' => by simp [hstate]
    rw [hplace, List.filter_beq, List.map_replicate]
    by_cases hd : d ∈ t.directions
    · simp [hstate, hd, List.count_eq_one_of_mem hnodup hd]
    · simp [hstate, hd, List.count_eq_zero_of_not_mem hd]
  · simp [hstate, Function.comp_def]

theorem types_set (v : Version) (hdirections : ∀ t ∈ types, t.directions.Nodup)
    (state : ConnectionState) (d : Direction) : (set state d ⟨v, entriesOf types⟩).types =
      types.filter fun t => t.state = state ∧ d ∈ t.directions := by
  induction types with
  | nil => rfl
  | cons t types ih =>
    rw [List.forall_mem_cons] at hdirections
    have hentries : entriesOf (t :: types) =
        (t.directions.map fun d' => (d', t)) ++ entriesOf types := List.flatMap_cons
    have hrest : ((entriesOf types).filter fun e => e.1 == d && e.2.state == state).map (·.2) = _ :=
      ih hdirections.2
    show ((entriesOf (t :: types)).filter fun e => e.1 == d && e.2.state == state).map (·.2) = _
    rw [hentries, List.filter_append, List.map_append, entered_once hdirections.1, hrest,
      ← List.filter_append, List.singleton_append]

theorem holds_entriesOf (v : Version) (hdirections : ∀ t ∈ types, t.directions.Nodup)
    (h : types.Pairwise Compatible) : Holds ⟨v, entriesOf types⟩ v types where
  version := rfl
  types_eq := types_set v hdirections
  get?_iff state d id t := by
    have hmem : ∀ u, u ∈ (set state d ⟨v, entriesOf types⟩).types ↔
        u ∈ types ∧ u.state = state ∧ d ∈ u.directions := fun u => by
      rw [types_set v hdirections, List.mem_filter, decide_eq_true_iff]
    rw [PacketSet.get?]
    constructor
    · intro hfind
      obtain ⟨ht, hstate, hd⟩ := (hmem t).mp (List.mem_of_find?_eq_some hfind)
      have hid := List.find?_some hfind
      exact ⟨ht, hstate, hd, beq_iff_eq.mp hid⟩
    · rintro ⟨ht, rfl, hd, rfl⟩
      rcases hfind : (set t.state d ⟨v, entriesOf types⟩).types.find? (·.id == t.id) with _ | u
      · exact absurd (List.find?_eq_none.mp hfind t ((hmem t).mpr ⟨ht, rfl, hd⟩)) (by simp)
      · obtain ⟨hu, hstate, hd'⟩ := (hmem u).mp (List.mem_of_find?_eq_some hfind)
        have hid := List.find?_some hfind
        have hplace : u.Occupies d t := ⟨beq_iff_eq.mp hid, hstate, hd'⟩
        exact hfind.trans (congrArg some (eq_of_occupies h hu ht hplace ⟨rfl, rfl, hd⟩))

/-! ### The order of the list -/

theorem alike_of_perm {types' : List PacketType} {table table' : PacketTable} {v : Version}
    (hpairwise : types.Pairwise Compatible) (hperm : types.Perm types') (h : table.Holds v types)
    (h' : table'.Holds v types') (state : ConnectionState) (d : Direction) :
    (table.set state d).Alike (table'.set state d) where
  version := h.version.trans h'.version.symm
  state := rfl
  direction := rfl
  get? id := Option.ext fun t => by
    rw [h.get?_iff, h'.get?_iff, hperm.mem_iff]
  sorted := by
    refine PacketSet.sorted_eq_of_perm ?_ fun t ht u hu hid => ?_
    · rw [h.types_eq, h'.types_eq]
      exact hperm.filter _
    · rw [h.types_eq, List.mem_filter, decide_eq_true_iff] at ht hu
      obtain ⟨ht, hstate, hd⟩ := ht
      obtain ⟨hu, hstate', hd'⟩ := hu
      exact eq_of_occupies hpairwise ht hu ⟨hid, hstate.trans hstate'.symm, hd⟩ ⟨rfl, rfl, hd'⟩

/-! ### Tables -/

/-- A list of packet types, each with directions that are all different, has a table exactly if no
two of them clash. The sets of the table hold exactly what is listed for them, whatever the order of
the list. A list that has no table is refused for its first clash. -/
theorem ofTypes_exactly (v : Version) {types : List PacketType}
    (hdirections : ∀ t ∈ types, t.directions.Nodup) :
    ((∃ table, ofTypes v types = .ok table) ↔ types.Pairwise Compatible) ∧
      (∀ table, ofTypes v types = .ok table → table.Holds v types ∧
        ∀ types', types.Perm types' → ∃ table', ofTypes v types' = .ok table' ∧
          ∀ state d, (table.set state d).Alike (table'.set state d)) ∧
      ∀ fault, ofTypes v types = .error fault ↔ ∃ t d first, FirstClash types t d first ∧
        fault = .duplicatePacket t.id t.state d first.name t.name := by
  have hok : ∀ table, ofTypes v types = .ok table → types.Pairwise Compatible := by
    intro table htable
    rcases pairwise_or_firstClash types with h | ⟨t, d, first, h⟩
    · exact h
    · rw [ofTypes_of_firstClash hdirections h] at htable
      contradiction
  refine ⟨⟨fun ⟨table, htable⟩ => hok table htable, fun h => ?_⟩, fun table htable => ?_,
    fun fault => ⟨fun hfault => ?_, ?_⟩⟩
  · exact ⟨_, ofTypes_of_pairwise hdirections h⟩
  · have h := hok table htable
    rw [ofTypes_of_pairwise hdirections h] at htable
    obtain rfl := Except.ok.inj htable
    have hholds := holds_entriesOf v hdirections h
    refine ⟨hholds, fun types' hperm => ?_⟩
    have hdirections' : ∀ t ∈ types', t.directions.Nodup := fun t ht =>
      hdirections t (hperm.mem_iff.mpr ht)
    have h' := (hperm.pairwise_iff Compatible.symm).mp h
    exact ⟨_, ofTypes_of_pairwise hdirections' h', fun state d =>
      alike_of_perm h hperm hholds (holds_entriesOf v hdirections' h') state d⟩
  · rcases pairwise_or_firstClash types with h | ⟨t, d, first, h⟩
    · rw [ofTypes_of_pairwise hdirections h] at hfault
      contradiction
    · rw [ofTypes_of_firstClash hdirections h] at hfault
      exact ⟨t, d, first, h, (Except.error.inj hfault).symm⟩
  · rintro ⟨t, d, first, h, rfl⟩
    exact ofTypes_of_firstClash hdirections h

/-- A type of both directions, one with its id in a state of its own, and one that clashes with the
first towards the client only. -/
def clashing : List PacketType :=
  [⟨"first", 7, .status, Direction.both, fun v => PacketKind.ping.body v⟩,
    ⟨"apart", 7, .play, [.serverbound], fun v => PacketKind.ping.body v⟩,
    ⟨"second", 7, .status, [.clientbound], fun v => PacketKind.ping.body v⟩]

theorem ofTypes_exactly_one_direction :
    (∀ t ∈ clashing, t.directions.Nodup) ∧
      ofTypes ⟨47⟩ clashing =
        .error (.duplicatePacket 7 .status .clientbound "first" "second") ∧
      ∃ table, ofTypes ⟨47⟩ (clashing.take 2) = .ok table ∧ ∀ d,
        ((table.set .status d).get? 7).map (·.name) = some "first" := by
  have hclash : ∀ t ∈ clashing, t.directions.Nodup := by decide
  have hapart : ∀ t ∈ clashing.take 2, t.directions.Nodup := by decide
  have hfirst : FirstClash clashing _ .clientbound _ :=
    ⟨clashing.take 2, [], [], [], rfl, rfl, by decide, List.forall_mem_nil _, List.mem_cons_self,
      rfl, rfl, by decide⟩
  refine ⟨hclash, ((ofTypes_exactly ⟨47⟩ hclash).2.2 _).mpr ⟨_, _, _, hfirst, rfl⟩, ?_⟩
  obtain ⟨table, htable⟩ := (ofTypes_exactly ⟨47⟩ hapart).1.mpr (by decide)
  have hholds := ((ofTypes_exactly ⟨47⟩ hapart).2.1 table htable).1
  refine ⟨table, htable, fun d => ?_⟩
  rw [(hholds.get?_iff .status d 7 _).mpr ⟨List.mem_cons_self, rfl, by cases d <;> decide, rfl⟩]
  rfl

end PacketTable

end MinecraftWire
