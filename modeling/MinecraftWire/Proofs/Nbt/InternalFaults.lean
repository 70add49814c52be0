import MinecraftWire.Proofs.Nbt.Invariant
import MinecraftWire.Proofs.Nbt.Writing

/-! The branches of the codec that its own order of things excludes. A root is never refused for a
payload that is no scalar or for a child without a name, every list that has all its elements
closes, and so a breach of the rules for trees is always a child's name that is empty or taken. The
writer has no fault but those of the limits. -/

namespace MinecraftWire.Nbt

open Reader

namespace Read

/-! ### Courses -/

theorem not_structural {α : Type} {r : Reader α} (hr : r.Orderly Rejected) {s s' : Source}
    {breach : Breach} (h : r s = (.error (.structural breach), s')) : False := by
  cases hr.stopped h with
  | refused h => cases h

theorem Course.sound {p : Point} {points : List Point} {result : Except Fault Tag × Source}
    (h : Course p points result) (hp : Sound p) : ∀ q ∈ points, Sound q :=
  h.induct Sound (fun _ points _ => ∀ q ∈ points, Sound q) Sound.move
    (fun hp _ => List.forall_mem_singleton.mpr hp)
    (fun hp _ hrest => List.forall_mem_cons.mpr ⟨hp, hrest⟩) hp

/-- The last point is one at which a child is given to a compound that cannot take its name, and the
channel is left there. -/
def LastClashes (points : List Point) (breach : Breach) (left : Source) : Prop :=
  ∃ entered t built name stack,
    points.getLast? = some (.climb entered (some t), .compound built (some name) :: stack, left) ∧
      Clash built name breach

theorem LastClashes.cons {p : Point} {points : List Point} {breach : Breach} {left : Source}
    (h : LastClashes points breach left) : LastClashes (p :: points) breach left := by
  obtain ⟨entered, t, built, name, stack, hlast, hclash⟩ := h
  exact ⟨entered, t, built, name, stack, by rw [List.getLast?_cons, hlast]; rfl, hclash⟩

/-- Among the ends only a clash of names is a breach of the rules. -/
theorem Sound.lastClashes {p : Point} {breach : Breach} {left : Source} (h : Sound p)
    (hend : End p (.error (.structural breach), left)) : LastClashes [p] breach left := by
  cases hend with
  | scalar hlist hcompound hfault =>
    exact (not_structural (orderly_scalar hlist hcompound) hfault).elim
  | listHeading hroom hfault => exact (not_structural orderly_listHeading hfault).elim
  | childHeading ho hfault => exact (not_structural orderly_childHeading hfault).elim
  | closeList ho hclose => exact absurd ((h.closes ho).symm.trans hclose) nofun
  | attach hfault =>
    obtain ⟨t, built, name, breach', rfl, rfl, hbreach, hclash⟩ := h.clash hfault
    obtain rfl := Fault.structural.inj hbreach
    exact ⟨_, t, built, name, _, rfl, hclash⟩

theorem Course.lastClashes {p : Point} {points : List Point} {result : Except Fault Tag × Source}
    (h : Course p points result) (hp : Sound p) {breach : Breach} {left : Source}
    (hresult : result = (.error (.structural breach), left)) : LastClashes points breach left :=
  h.induct Sound (fun _ points result =>
    result = (.error (.structural breach), left) → LastClashes points breach left) Sound.move
    (fun hp hend hresult => hp.lastClashes (hresult ▸ hend))
    (fun _ _ hrest hresult => (hrest hresult).cons) hp hresult

/-! ### Readings -/

/-- A reading that never comes to a fault of the loop's own. -/
structure Faultless (points : List Point) (result : Except Fault Root × Source) : Prop where
  internal : ∀ cause, result.1 = .error (.format cause) → ¬ Internal cause
  closes : ∀ entered done top stack s element items,
    (.climb entered done, top :: stack, s) ∈ points →
      top.acceptDone done = .ok (.list element 0 items) →
        closeList element items = .ok (.list element items.reverse)
  breach : ∀ breach, result.1 = .error (.structural breach) → LastClashes points breach result.2

theorem not_internal_of_stopped {s s' : Source} {cause : MinecraftWire.Malformation}
    (h : Stopped Refusal s s' (.format cause)) : ¬ Internal cause := by
  cases h with
  | refused h =>
    cases h with
    | rejected h =>
      cases h with
      | format h => exact h

theorem Reading.faultless {header : Header} {s : Source} {points : List Point}
    {result : Except Fault Root × Source} (h : Reading header s points result) :
    Faultless points result := by
  refine ⟨fun cause hcause => not_internal_of_stopped (h.endsOrderly.stopped hcause), ?_, ?_⟩
  · intro entered done top stack s' element items hmem ho
    cases h with
    | refused => exact absurd hmem List.not_mem_nil
    | endMark => exact absurd hmem List.not_mem_nil
    | tree hheading hkind hcourse =>
      exact (hcourse.sound (sound_payload hkind _) _ hmem).closes ho
  · intro breach hbreach
    cases h with
    | refused hheading =>
      obtain rfl := Except.error.inj hbreach
      exact (not_structural (orderly_heading header) hheading).elim
    | endMark => contradiction
    | @tree kind name s₁ s' points outcome hheading hkind hcourse =>
      cases outcome with
      | ok t => contradiction
      | error fault =>
        obtain rfl := Except.error.inj hbreach
        exact hcourse.lastClashes (sound_payload hkind s₁) rfl

end Read

/-! ### Writing -/

theorem Write.fault_of_append {t : Tag} {out : Bytes} {fault : Fault}
    (h : (append t out).2 = some fault) : t.Refused maxDepth fault := by
  by_cases hadmitted : t.Admitted maxDepth
  · rw [append_of_admitted hadmitted] at h
    contradiction
  · obtain ⟨_, fault', happend, -, hrefused⟩ := append_of_not_admitted hadmitted out
    rw [happend] at h
    exact Option.some.inj h ▸ hrefused

theorem Tag.Refused.not_internal {room : Nat} {t : Tag} {cause : MinecraftWire.Malformation}
    (h : t.Refused room (.format cause)) : ¬ Read.Internal cause := by
  cases h with
  | nesting =>
    intro h
    cases h

/-- No bytes make the reader come to a fault of its loop's own: every reading is without one. And no
tree makes the writer come to such a fault. -/
theorem internal_faults_unreachable :
    (∀ (header : Header) (s : Source), ∃ points,
      Read.Reading header s points (Read.root header s) ∧
        Read.Faultless points (Read.root header s)) ∧
    ∀ (t : Tag) (out : Bytes) (cause : MinecraftWire.Malformation),
      (Write.append t out).2 = some (.format cause) → ¬ Read.Internal cause := by
  constructor
  · intro header s
    obtain ⟨points, hreading⟩ := Read.exists_reading header s
    exact ⟨points, hreading, hreading.faultless⟩
  · intro t out cause h
    exact (Write.fault_of_append h).not_internal

end MinecraftWire.Nbt
