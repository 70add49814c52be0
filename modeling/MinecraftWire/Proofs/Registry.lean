import MinecraftWire.Registry.Cache

/-! Packet tables and the registry. No two packet types of a version clash, so its table can be
built and finds each of them under its id. Whatever order a registry is asked in, the table it has
for a version is the one built from that version. As long as every table is published under a number
that none before it has, the numbers tell the tables apart. -/

namespace MinecraftWire

/-! ### Tables -/

namespace PacketType

/-- A kind of packet under an id. -/
def ofKind (kind : PacketKind) (id : Int32) : PacketType :=
  ⟨kind.name, id, kind.state, kind.directions, fun v => kind.body v⟩

/-- The plugin messages are the only packets that some versions lack. -/
theorem id?_congr {v w : Version} (h : v.hasPluginMessages = w.hasPluginMessages)
    (kind : PacketKind) : kind.id? v = kind.id? w := by
  cases kind <;> simp [PacketKind.id?, h]

theorem declared_congr {v w : Version} (h : v.hasPluginMessages = w.hasPluginMessages) :
    declared v = declared w := by
  have hkind : ofKind? v = ofKind? w := by
    funext kind
    rw [ofKind?, ofKind?, id?_congr h]
  rw [declared, declared, hkind]

/-- As far as packet types go two versions stand for all, one without plugin messages and one with. -/
theorem exists_declared_eq (v : Version) :
    ∃ w : Version, (w = ⟨47⟩ ∨ w = ⟨393⟩) ∧ (∀ kind : PacketKind, kind.id? v = kind.id? w) ∧
      declared v = declared w := by
  cases h : v.hasPluginMessages
  · exact ⟨⟨47⟩, .inl rfl, id?_congr h, declared_congr h⟩
  · exact ⟨⟨393⟩, .inr rfl, id?_congr h, declared_congr h⟩

end PacketType

namespace PacketTable

/-- Each packet type in each of its directions. -/
def entriesOf (types : List PacketType) : List (Direction × PacketType) :=
  types.flatMap fun t => t.directions.map fun d => (d, t)

theorem registerAll_declared (v : Version) :
    registerAll (PacketType.declared v) [] = .ok (entriesOf (PacketType.declared v)) := by
  obtain ⟨w, hw, -, hdeclared⟩ := PacketType.exists_declared_eq v
  rw [hdeclared]
  rcases hw with rfl | rfl <;> rfl

/-- Every version has a table. -/
theorem build_eq (v : Version) : build v = .ok ⟨v, entriesOf (PacketType.declared v)⟩ := by
  rw [build, ofTypes, registerAll_declared]
  rfl

/-- A packet type is found under its id, in its state and in each of its directions. -/
theorem get?_set {v : Version} {kind : PacketKind} {id : Int32} {d : Direction}
    (hid : kind.id? v = some id) (hd : d ∈ kind.directions) :
    (set kind.state d ⟨v, entriesOf (PacketType.declared v)⟩).get? id = some (.ofKind kind id) := by
  obtain ⟨w, hw, hsame, hdeclared⟩ := PacketType.exists_declared_eq v
  rw [hsame] at hid
  rw [PacketSet.get?, set, hdeclared]
  rcases hw with rfl | rfl <;> cases kind <;> cases d
  all_goals first | exact absurd hd (by decide) | (cases hid; done) | (cases hid; rfl)

theorem lookup_set {v : Version} {table : PacketTable} {kind : PacketKind} {id : Int32}
    {d : Direction} (hbuild : build v = .ok table) (hid : kind.id? v = some id)
    (hd : d ∈ kind.directions) : (table.set kind.state d).lookup id = .ok (.ofKind kind id) := by
  rw [build_eq] at hbuild
  obtain rfl := Except.ok.inj hbuild
  rw [PacketSet.lookup, get?_set hid hd]

/-- What is found under an id is a packet type of the version, with this id, the set's state and the
set's direction among its own. -/
theorem lookup_eq_ok {v : Version} {table : PacketTable} {state : ConnectionState} {d : Direction}
    {id : Int32} {type : PacketType} (hbuild : build v = .ok table)
    (h : (table.set state d).lookup id = .ok type) :
    ∃ kind : PacketKind, kind.id? v = some id ∧ kind.state = state ∧ d ∈ kind.directions ∧
      type = .ofKind kind id := by
  rw [build_eq] at hbuild
  obtain rfl := Except.ok.inj hbuild
  unfold PacketSet.lookup at h
  rcases hfind : PacketSet.get? id _ with _ | found <;> rw [hfind] at h
  · contradiction
  obtain rfl := Except.ok.inj h
  have hid := List.find?_some hfind
  obtain ⟨⟨d', t'⟩, hentry, rfl⟩ := List.mem_map.mp (List.mem_of_find?_eq_some hfind)
  obtain ⟨hentry, hplace⟩ := List.mem_filter.mp hentry
  obtain ⟨t, hdeclared, hdirection⟩ := List.mem_flatMap.mp hentry
  obtain ⟨_, hd, hsame⟩ := List.mem_map.mp hdirection
  obtain ⟨rfl, rfl⟩ := Prod.mk.inj hsame
  obtain ⟨kind, -, hkind⟩ := List.mem_filterMap.mp hdeclared
  obtain ⟨id', hid', rfl⟩ := Option.map_eq_some_iff.mp hkind
  simp only [Bool.and_eq_true, beq_iff_eq] at hplace hid
  obtain ⟨rfl, hstate⟩ := hplace
  subst hid
  exact ⟨kind, hid', hstate, hd, rfl⟩

theorem version_of_build {v : Version} {table : PacketTable} (h : build v = .ok table) :
    table.version = v := by
  rw [build_eq] at h
  obtain rfl := Except.ok.inj h
  rfl

end PacketTable

/-! ### The registry -/

namespace Registry

/-- The registries there are: tables are published one after another, each as it was built for some
version. Two requests may build the same table before either publishes it. -/
inductive Reachable : Registry → Prop where
  | empty : Reachable empty
  | publish {r : Registry} {v : Version} {table : PacketTable} (hr : Reachable r)
      (hbuild : PacketTable.build v = .ok table) : Reachable (r.publish v table).2

/-- Each table is the one of the version it is kept under. -/
def Sound (r : Registry) : Prop :=
  ∀ v published, r.find? v = some published → PacketTable.build v = .ok published.table

theorem sound_empty : Sound empty := by
  intro v published h
  simp [find?, empty] at h

/-- A version that has a table keeps it; any other finds the new table if it was published for it. -/
theorem find?_publish (r : Registry) (v w : Version) (table : PacketTable) :
    (r.publish v table).2.find? w = (r.find? w).or
      (if v = w then some ⟨r.published.length, table⟩ else none) := by
  unfold publish
  rcases h : r.find? v with _ | published
  · simp only [find?, List.find?_append, Option.map_or]
    by_cases hvw : v = w
    · simp [hvw]
    · simp [hvw]
  · by_cases hvw : v = w
    · subst hvw
      simp [h]
    · simp [hvw]

theorem Sound.publish {r : Registry} {v : Version} {table : PacketTable} (hr : r.Sound)
    (hbuild : PacketTable.build v = .ok table) : (r.publish v table).2.Sound := by
  intro w published h
  rw [find?_publish] at h
  rcases hw : r.find? w with _ | earlier
  · rw [hw, Option.none_or] at h
    split at h
    · rename_i hvw
      obtain rfl := Option.some.inj h
      rw [← hvw, hbuild]
    · simp at h
  · rw [hw, Option.some_or] at h
    rw [hr w earlier hw, Option.some.inj h]

theorem Reachable.sound {r : Registry} (h : r.Reachable) : r.Sound := by
  induction h with
  | empty => exact sound_empty
  | publish _ hbuild ih => exact ih.publish hbuild

theorem Reachable.table {r : Registry} (h : r.Reachable) (v : Version) :
    (r.table v).registry.Reachable := by
  unfold Registry.table resolution
  rcases v.resolve with fault | resolution
  · exact h
  · dsimp only
    cases hfind : r.find? resolution.effective with
    | some published => exact h
    | none =>
      simp only [PacketTable.build_eq]
      exact h.publish (PacketTable.build_eq _)

/-- A version that resolves has a table, the one of its effective version. -/
theorem Reachable.outcome_table {r : Registry} (h : r.Reachable) {v : Version}
    {resolution : Version.Resolution} (hv : v.resolve = .ok resolution) :
    ∃ published, (r.table v).outcome = .ok published ∧
      PacketTable.build resolution.effective = .ok published.table := by
  have hsound := h.sound
  unfold Registry.table Registry.resolution
  rw [hv]
  dsimp only
  cases hfind : r.find? resolution.effective with
  | some published => exact ⟨published, rfl, hsound _ _ hfind⟩
  | none =>
    rw [PacketTable.build_eq]
    refine ⟨_, rfl, ?_⟩
    rw [Registry.publish, hfind]

/-- The packet set that a version resolves to, in a packet's state and one of its directions, finds
the packet's type under its id. -/
theorem Reachable.lookup_resolve {r : Registry} (h : r.Reachable) {v : Version}
    {resolution : Version.Resolution} (hv : v.resolve = .ok resolution) {kind : PacketKind}
    {id : Int32} {d : Direction} (hid : kind.id? resolution.effective = some id)
    (hd : d ∈ kind.directions) :
    ∃ set, (r.resolve v kind.state d).outcome = .ok set ∧ set.version = resolution.effective ∧
      set.lookup id = .ok (.ofKind kind id) := by
  obtain ⟨published, houtcome, hbuild⟩ := h.outcome_table hv
  refine ⟨published.table.set kind.state d, ?_, PacketTable.version_of_build hbuild,
    PacketTable.lookup_set hbuild hid hd⟩
  rw [Registry.resolve, houtcome]
  rfl

/-- Every packet set that a version resolves to is one of the table of its effective version. -/
theorem Reachable.resolve_eq_ok {r : Registry} (h : r.Reachable) {v : Version}
    {state : ConnectionState} {d : Direction} {set : PacketSet}
    (hset : (r.resolve v state d).outcome = .ok set) :
    ∃ resolution table, v.resolve = .ok resolution ∧
      PacketTable.build resolution.effective = .ok table ∧ set = table.set state d := by
  rcases hv : v.resolve with fault | resolution
  · simp [Registry.resolve, Registry.table, Registry.resolution, hv, Except.map] at hset
  · obtain ⟨published, houtcome, hbuild⟩ := h.outcome_table hv
    rw [Registry.resolve, houtcome] at hset
    exact ⟨resolution, published.table, rfl, hbuild, (Except.ok.inj hset).symm⟩

/-! ### What a request for a table gives -/

theorem resolution_of_unsupported {v : Version} (hv : v.resolve? = none) (r : Registry) :
    r.resolution v = ⟨.error (.unsupportedVersion v), [], r⟩ := by
  rw [Registry.resolution, Version.resolve, hv]

theorem resolution_of_resolves {v : Version} {resolution : Version.Resolution}
    (hv : v.resolve? = some resolution) (r : Registry) : r.resolution v =
      ⟨.ok resolution, if resolution.fallback = .nearest then [resolution] else [], r⟩ := by
  rw [Registry.resolution, Version.resolve, hv]

theorem table_of_unsupported {v : Version} (hv : v.resolve? = none) (r : Registry) :
    r.table v = ⟨.error (.unsupportedVersion v), [], r⟩ := by
  rw [Registry.table, resolution_of_unsupported hv]

/-- A version that resolves gets what its effective version has published, now if not before. -/
theorem table_of_resolves {v : Version} {resolution : Version.Resolution} {table : PacketTable}
    (hv : v.resolve? = some resolution) (hbuild : PacketTable.build resolution.effective = .ok table)
    (r : Registry) : r.table v = ⟨.ok (r.publish resolution.effective table).1,
      (r.resolution v).warnings, (r.publish resolution.effective table).2⟩ := by
  rw [Registry.table, resolution_of_resolves hv]
  dsimp only
  cases hfind : r.find? resolution.effective with
  | some published => simp only [Registry.publish, hfind]
  | none => simp only [hbuild]

/-! ### Numbers -/

/-- The versions with a published table, in the order of publication. -/
def versions (r : Registry) : List Version :=
  r.published.map Prod.fst

/-- Keep a table under a version, unless the version has one already, and give the one it has. -/
def keep (r : Registry) (effective : Version) (built : PublishedTable) : PublishedTable × Registry :=
  match r.find? effective with
  | some published => (published, r)
  | none => (built, ⟨r.published ++ [(effective, built)]⟩)

theorem publish_eq_keep (r : Registry) (v : Version) (table : PacketTable) :
    r.publish v table = r.keep v ⟨r.published.length, table⟩ := rfl

theorem find?_eq_none_iff {r : Registry} {w : Version} : r.find? w = none ↔ w ∉ r.versions := by
  simp only [find?, versions, Option.map_eq_none_iff, List.find?_eq_none, List.mem_map, beq_iff_eq,
    not_exists, not_and]

variable {r : Registry} {v w : Version} {built p q : PublishedTable} {n m : Nat}

theorem keep_of_some (h : r.find? v = some p) : r.keep v built = (p, r) := by
  rw [keep, h]

theorem keep_of_none (h : r.find? v = none) :
    r.keep v built = (built, ⟨r.published ++ [(v, built)]⟩) := by
  rw [keep, h]

/-- What the version has afterwards is what it was given. -/
theorem find?_keep_self (r : Registry) (v : Version) (built : PublishedTable) :
    (r.keep v built).2.find? v = some (r.keep v built).1 := by
  rcases h : r.find? v with _ | p
  · rw [keep_of_none h]
    rw [find?, Option.map_eq_none_iff] at h
    simp [find?, h]
  · rw [keep_of_some h]
    exact h

/-- No version loses its table, and no other version gets one. -/
theorem find?_keep_of_ne (h : v ≠ w) : (r.keep v built).2.find? w = r.find? w := by
  rcases hv : r.find? v with _ | p
  · rw [keep_of_none hv]
    simp [find?, h]
  · rw [keep_of_some hv]

theorem find?_keep_of_some (built : PublishedTable) (v : Version) (h : r.find? w = some p) :
    (r.keep v built).2.find? w = some p := by
  by_cases hvw : v = w
  · subst hvw
    rw [keep_of_some h]
    exact h
  · rw [find?_keep_of_ne hvw, h]

/-- A table that is found was there before or has just been kept. -/
theorem of_find?_keep (h : (r.keep v built).2.find? w = some p) :
    r.find? w = some p ∨ w = v ∧ p = built := by
  by_cases hvw : v = w
  · subst hvw
    rw [find?_keep_self] at h
    rcases hv : r.find? v with _ | published
    · rw [keep_of_none hv] at h
      exact .inr ⟨rfl, (Option.some.inj h).symm⟩
    · rw [keep_of_some hv] at h
      exact .inl h
  · rw [find?_keep_of_ne hvw] at h
    exact .inl h

/-- Each table is the one of its version and has a number of its own below `n`. -/
structure Numbered (r : Registry) (n : Nat) : Prop where
  sound : r.Sound
  nodup : r.versions.Nodup
  lt {v : Version} {p : PublishedTable} : r.find? v = some p → p.number < n
  inj {v w : Version} {p q : PublishedTable} :
    r.find? v = some p → r.find? w = some q → p.number = q.number → v = w

theorem numbered_empty (n : Nat) : empty.Numbered n where
  sound := sound_empty
  nodup := List.nodup_nil
  lt h := by contradiction
  inj h := by contradiction

theorem Numbered.mono (h : r.Numbered n) (hle : n ≤ m) : r.Numbered m :=
  ⟨h.sound, h.nodup, fun hv => Nat.lt_of_lt_of_le (h.lt hv) hle, h.inj⟩

/-- A table with a number that no published one has may be kept. -/
theorem Numbered.keep (h : r.Numbered n) (hbuild : PacketTable.build v = .ok built.table)
    (hlt : built.number < n) (hnew : ∀ w p, r.find? w = some p → p.number ≠ built.number) :
    (r.keep v built).2.Numbered n where
  sound w p hw := by
    rcases of_find?_keep hw with hw | ⟨rfl, rfl⟩
    · exact h.sound w p hw
    · exact hbuild
  nodup := by
    rcases hv : r.find? v with _ | published
    · rw [keep_of_none hv, versions, List.map_append, List.nodup_append]
      refine ⟨h.nodup, List.pairwise_singleton _ _, ?_⟩
      rintro w hw _ hsingle rfl
      obtain rfl : w = v := List.mem_singleton.mp hsingle
      exact find?_eq_none_iff.mp hv hw
    · rw [keep_of_some hv]
      exact h.nodup
  lt hw := by
    rcases of_find?_keep hw with hw | ⟨-, rfl⟩
    · exact h.lt hw
    · exact hlt
  inj hfirst hsecond hnumber := by
    rcases of_find?_keep hfirst with hv | ⟨rfl, rfl⟩ <;>
      rcases of_find?_keep hsecond with hw | ⟨rfl, rfl⟩
    · exact h.inj hv hw hnumber
    · exact absurd hnumber (hnew _ _ hv)
    · exact absurd hnumber.symm (hnew _ _ hw)
    · rfl

theorem mem_versions_keep : w ∈ (r.keep v built).2.versions ↔ w ∈ r.versions ∨ w = v := by
  rcases hv : r.find? v with _ | published
  · rw [keep_of_none hv, versions, List.map_append, List.mem_append]
    exact or_congr Iff.rfl List.mem_singleton
  · rw [keep_of_some hv]
    have hmem : v ∈ r.versions := Decidable.of_not_not fun hmem => by
      rw [find?_eq_none_iff.mpr hmem] at hv
      contradiction
    exact ⟨.inl, fun h => h.elim id fun h => h ▸ hmem⟩

/-- Every number below that of the next table may be in use. -/
theorem Numbered.publish (h : r.Numbered r.published.length) {table : PacketTable}
    (hbuild : PacketTable.build v = .ok table) :
    (r.publish v table).2.Numbered (r.publish v table).2.published.length := by
  have hnew : ∀ w p, r.find? w = some p → p.number ≠ r.published.length :=
    fun w p hw => Nat.ne_of_lt (h.lt hw)
  have hkeep : (r.keep v ⟨r.published.length, table⟩).2.Numbered (r.published.length + 1) :=
    (h.mono (Nat.le_succ _)).keep hbuild (Nat.lt_succ_self _) hnew
  rw [publish_eq_keep]
  rcases hv : r.find? v with _ | published
  · rw [keep_of_none hv] at hkeep ⊢
    simpa using hkeep
  · rw [keep_of_some hv]
    exact h

end Registry

/-- The version whose layouts a version uses. -/
def Version.effective? (v : Version) : Option Version :=
  v.resolve?.map (·.effective)

end MinecraftWire
