import MinecraftWire.Proofs.Registry

/-! Which layouts a version uses: those of the greatest supported version that is not above it. -/

namespace MinecraftWire.Version

def oldest : Version :=
  supported.head (by decide)

theorem supported_ascending : supported.Pairwise (·.number < ·.number) := by
  decide

theorem oldest_le : ∀ w ∈ supported, oldest.number ≤ w.number := by
  decide

/-- The greatest supported version that is not above `v`. -/
structure Effective (v w : Version) : Prop where
  supported : w ∈ supported
  le : w.number ≤ v.number
  greatest : ∀ u ∈ Version.supported, u.number ≤ v.number → u.number ≤ w.number

variable {v w : Version}

theorem eq_of_number_eq (h : v.number = w.number) : v = w := by
  cases v
  cases w
  exact congrArg mk h

theorem Effective.unique {u : Version} (h : v.Effective w) (h' : v.Effective u) : w = u :=
  eq_of_number_eq <|
    Int.le_antisymm (h'.greatest w h.supported h.le) (h.greatest u h'.supported h'.le)

theorem effective_of_supported (h : v ∈ supported) : v.Effective v :=
  ⟨h, Int.le_refl _, fun _ _ hu => hu⟩

/-- The first version below `v` from above is the greatest. -/
theorem effective_of_find? (hv : v ∉ supported)
    (h : (supported.reverse.find? fun u => u.number < v.number) = some w) : v.Effective w := by
  obtain ⟨hw, above, below, hsplit, habove⟩ := List.find?_eq_some_iff_append.mp h
  have hw : w.number < v.number := of_decide_eq_true hw
  have hmem : ∀ u, u ∈ supported ↔ u ∈ above ++ w :: below := by
    intro u
    rw [← hsplit, List.mem_reverse]
  have hsorted := List.pairwise_reverse.mpr supported_ascending
  rw [hsplit] at hsorted
  refine ⟨(hmem w).mpr (by simp), Int.le_of_lt hw, fun u hu hle => ?_⟩
  rcases List.mem_append.mp ((hmem u).mp hu) with hu' | hu'
  · have hlt : u.number ≠ v.number := fun heq => hv (eq_of_number_eq heq ▸ hu)
    have := habove u hu'
    simp only [Bool.not_eq_true', decide_eq_false_iff_not] at this
    omega
  · rcases List.mem_cons.mp hu' with rfl | hu'
    · exact Int.le_refl _
    · have := List.rel_of_pairwise_cons (List.pairwise_append.mp hsorted).2.1 hu'
      omega

theorem effective?_eq_some_iff : v.effective? = some w ↔ v.Effective w := by
  unfold effective? resolve?
  by_cases hv : v ∈ supported
  · rw [if_pos (by simpa [isSupported] using hv)]
    refine ⟨fun h => ?_, fun h => ?_⟩
    · obtain rfl : v = w := Option.some.inj h
      exact effective_of_supported hv
    · exact congrArg some ((effective_of_supported hv).unique h)
  · rw [if_neg (by simpa [isSupported] using hv), Option.map_map]
    cases hfind : supported.reverse.find? fun u => decide (u.number < v.number) with
    | none =>
      refine iff_of_false (by simp) fun h => ?_
      have hlt : w.number ≠ v.number := fun heq => hv (eq_of_number_eq heq ▸ h.supported)
      have hle := h.le
      refine List.find?_eq_none.mp hfind w (List.mem_reverse.mpr h.supported) (decide_eq_true ?_)
      omega
    | some u =>
      have hu := effective_of_find? hv hfind
      refine ⟨fun h => ?_, fun h => ?_⟩
      · obtain rfl : u = w := Option.some.inj h
        exact hu
      · exact congrArg some (hu.unique h)

theorem exists_resolve_iff :
    (∃ resolution, v.resolve = .ok resolution ∧ resolution.effective = w) ↔ v.Effective w := by
  rw [← effective?_eq_some_iff, effective?, resolve]
  cases v.resolve? <;> simp

theorem oldest_le_of_effective (h : v.Effective w) : oldest.number ≤ v.number :=
  Int.le_trans (oldest_le w h.supported) h.le

/-! ### What resolution answers -/

/-- `r` gives `v` the greatest supported version that is not above it, and tells how `v` came by the
layouts of that version. -/
structure Resolves (v : Version) (r : Resolution) : Prop where
  requested : r.requested = v
  effective : v.Effective r.effective
  exact : r.fallback = .exact ↔ v ∈ supported
  compatible : r.fallback = .compatible ↔ v ∉ supported ∧ (v, r.effective) ∈ Version.compatible
  nearest : r.fallback = .nearest ↔ v ∉ supported ∧ (v, r.effective) ∉ Version.compatible

variable {r r' : Resolution}

theorem Resolves.unique (h : v.Resolves r) (h' : v.Resolves r') : r = r' := by
  obtain ⟨requested, effective, fallback⟩ := r
  obtain ⟨requested', effective', fallback'⟩ := r'
  obtain rfl : requested = requested' := h.requested.trans h'.requested.symm
  obtain rfl : effective = effective' := h.effective.unique h'.effective
  have hfallback : fallback = fallback' := by
    cases fallback with
    | exact => exact (h'.exact.mpr (h.exact.mp rfl)).symm
    | compatible => exact (h'.compatible.mpr (h.compatible.mp rfl)).symm
    | nearest => exact (h'.nearest.mpr (h.nearest.mp rfl)).symm
  rw [hfallback]

theorem resolve_of_supported (hv : v ∈ supported) : v.resolve = .ok ⟨v, v, .exact⟩ := by
  rw [resolve, resolve?, if_pos (by simpa [isSupported] using hv)]

/-- What resolves is supported, or is above some version that is. -/
theorem resolve?_eq_none_iff : v.resolve? = none ↔ ∀ w ∈ supported, v.number < w.number := by
  unfold resolve?
  by_cases hv : v ∈ supported
  · rw [if_pos (by simpa [isSupported] using hv)]
    exact iff_of_false (by simp) fun hbelow => Int.lt_irrefl _ (hbelow v hv)
  · rw [if_neg (by simpa [isSupported] using hv), Option.map_eq_none_iff, List.find?_eq_none]
    refine forall_congr' fun w => ?_
    rw [List.mem_reverse, decide_eq_true_eq]
    refine forall_congr' fun hw => ?_
    have hne : w.number ≠ v.number := fun heq => hv (eq_of_number_eq heq ▸ hw)
    omega

theorem resolve_eq_error_iff {fault : Fault} : v.resolve = .error fault ↔
    fault = .unsupportedVersion v ∧ ∀ w ∈ supported, v.number < w.number := by
  rw [← resolve?_eq_none_iff, resolve]
  cases v.resolve? <;> simp [eq_comm]

theorem resolves_of_resolve (h : v.resolve = .ok r) : v.Resolves r := by
  have heffective : v.Effective r.effective := exists_resolve_iff.mp ⟨r, h, rfl⟩
  by_cases hv : v ∈ supported
  · rw [resolve_of_supported hv] at h
    obtain rfl := Except.ok.inj h
    exact ⟨rfl, heffective, by simp [hv], by simp [hv], by simp [hv]⟩
  · rw [resolve, resolve?, if_neg (by simpa [isSupported] using hv)] at h
    cases hfind : supported.reverse.find? fun u => u.number < v.number with
    | none => simp [hfind] at h
    | some nearest =>
      simp only [hfind, Option.map_some, Except.ok.injEq] at h
      obtain rfl := h
      by_cases hagree : (v, nearest) ∈ Version.compatible <;>
        exact ⟨rfl, heffective, by simp [hv, hagree], by simp [hv, hagree], by simp [hv, hagree]⟩

theorem resolve_eq_ok_iff : v.resolve = .ok r ↔ v.Resolves r := by
  refine ⟨resolves_of_resolve, fun h => ?_⟩
  obtain ⟨r', hr', -⟩ := exists_resolve_iff.mpr h.effective
  rwa [h.unique (resolves_of_resolve hr')]

theorem Effective.mono {v' w' : Version} (h : v.Effective w) (h' : v'.Effective w')
    (hle : v.number ≤ v'.number) : w.number ≤ w'.number :=
  h'.greatest w h.supported (Int.le_trans h.le hle)

/-- Only a version below every supported one is refused. Any other resolves to the greatest
supported version not above it, which resolves to itself, and a higher version never resolves to a
lower one. -/
theorem resolve_nearest_below (v : Version) :
    (∀ fault, v.resolve = .error fault ↔
      fault = .unsupportedVersion v ∧ ∀ w ∈ supported, v.number < w.number) ∧
    (∀ r, v.resolve = .ok r ↔ v.Resolves r) ∧
    (∀ r, v.resolve = .ok r → r.effective.resolve = .ok ⟨r.effective, r.effective, .exact⟩) ∧
    ∀ w : Version, v.number ≤ w.number → ∀ r, v.resolve = .ok r →
      ∃ r', w.resolve = .ok r' ∧ r.effective.number ≤ r'.effective.number := by
  refine ⟨fun _ => resolve_eq_error_iff, fun _ => resolve_eq_ok_iff, fun r hr => ?_,
    fun w hle r hr => ?_⟩
  · exact resolve_of_supported (resolves_of_resolve hr).effective.supported
  · have heffective := (resolves_of_resolve hr).effective
    cases hw : w.resolve with
    | error fault =>
      have hbelow := (resolve_eq_error_iff.mp hw).2 _ heffective.supported
      have hle' := heffective.le
      omega
    | ok r' => exact ⟨r', rfl, heffective.mono (resolves_of_resolve hw).effective hle⟩

/-- A version between two supported ones, one known to agree with its nearest, and one that is too
old. -/
theorem resolve_nearest_below_cutoffs :
    (⟨756⟩ : Version).resolve = .ok ⟨⟨756⟩, ⟨754⟩, .nearest⟩ ∧
    (∃ r, (⟨758⟩ : Version).resolve = .ok r ∧ (754 : Int) ≤ r.effective.number) ∧
    (⟨758⟩ : Version).resolve = .ok ⟨⟨758⟩, ⟨757⟩, .compatible⟩ ∧
    (⟨757⟩ : Version).resolve = .ok ⟨⟨757⟩, ⟨757⟩, .exact⟩ ∧
    (⟨46⟩ : Version).resolve = .error (.unsupportedVersion ⟨46⟩) := by
  have hnearest : (⟨756⟩ : Version).resolve = .ok ⟨⟨756⟩, ⟨754⟩, .nearest⟩ := by rfl
  have hcompatible : (⟨758⟩ : Version).resolve = .ok ⟨⟨758⟩, ⟨757⟩, .compatible⟩ := by rfl
  exact ⟨hnearest, (resolve_nearest_below ⟨756⟩).2.2.2 ⟨758⟩ (by decide) _ hnearest, hcompatible,
    (resolve_nearest_below ⟨758⟩).2.2.1 _ hcompatible,
    ((resolve_nearest_below ⟨46⟩).1 _).mpr ⟨rfl, by decide⟩⟩

end MinecraftWire.Version
