import MinecraftWire.Proofs.Reader.Refusal

/-! How readers stop. A reader moves forward on its channel and gives up for one of three reasons:
the channel ended inside a value, the channel failed, or what came is refused. `Orderly` says so of
a reader whose own refusals are known; it is closed under the ways in which readers are composed. -/

namespace MinecraftWire

/-- The channel later on: a part of what was to come is still to come. -/
structure Source.Behind (s' s : Source) : Prop where
  pending : s'.pending <:+ s.pending
  failing : s'.failing = s.failing

namespace Source.Behind

variable {s s₁ s₂ : Source}

theorem refl (s : Source) : s.Behind s :=
  ⟨List.suffix_refl _, rfl⟩

theorem trans (h₂ : s₂.Behind s₁) (h₁ : s₁.Behind s) : s₂.Behind s :=
  ⟨h₂.pending.trans h₁.pending, h₂.failing.trans h₁.failing⟩

theorem length_le (h : s₁.Behind s) : s₁.pending.length ≤ s.pending.length :=
  h.pending.length_le

end Source.Behind

namespace Reader

variable {α β : Type} {r : Reader α} {f : α → Reader β} {refusals more : Fault → Prop}
  {s s' s₁ : Source} {fault : Fault} {result : Except Fault α × Source}

/-- Why a reader that was given the channel `s` stops and leaves `s'`, if it refuses what `refusals`
says. -/
inductive Stopped (refusals : Fault → Prop) (s s' : Source) : Fault → Prop where
  /-- The channel ended inside a value; of its bytes those that came are told. -/
  | ended {expected : Nat} {got : Bytes} (hfailing : s.failing = false) (hend : s'.pending = [])
      (hgot : got <:+ s.pending) (hshort : got.length < expected) :
      Stopped refusals s s' (.unexpectedEnd expected got)
  | failed (hfailing : s.failing = true) (hend : s'.pending = []) :
      Stopped refusals s s' (.channel .source)
  | refused {fault : Fault} (h : refusals fault) : Stopped refusals s s' fault

theorem Stopped.of_behind (h : Stopped refusals s₁ s' fault) (hs : s₁.Behind s) :
    Stopped refusals s s' fault := by
  cases h with
  | ended hfailing hend hgot hshort =>
    exact .ended (hs.failing ▸ hfailing) hend (hgot.trans hs.pending) hshort
  | failed hfailing hend => exact .failed (hs.failing ▸ hfailing) hend
  | refused h => exact .refused h

theorem Stopped.mono (h : Stopped refusals s s' fault)
    (hmore : ∀ fault, refusals fault → more fault) : Stopped more s s' fault := by
  cases h with
  | ended hfailing hend hgot hshort => exact .ended hfailing hend hgot hshort
  | failed hfailing hend => exact .failed hfailing hend
  | refused h => exact .refused (hmore _ h)

/-- What came of reading on the channel `s`: the channel is further on, and a fault has its
reason. -/
structure EndsOrderly (refusals : Fault → Prop) (s : Source) (result : Except Fault α × Source) :
    Prop where
  behind : result.2.Behind s
  stopped {fault : Fault} (h : result.1 = .error fault) : Stopped refusals s result.2 fault

namespace EndsOrderly

theorem of_behind (h : EndsOrderly refusals s₁ result) (hs : s₁.Behind s) :
    EndsOrderly refusals s result where
  behind := h.behind.trans hs
  stopped hfault := (h.stopped hfault).of_behind hs

theorem ok (a : α) (hs : s'.Behind s) : EndsOrderly refusals s (.ok a, s') where
  behind := hs
  stopped h := nomatch h

theorem error (hs : s'.Behind s) (h : Stopped refusals s s' fault) :
    EndsOrderly refusals s ((.error fault, s') : Except Fault α × Source) where
  behind := hs
  stopped hfault := Except.error.inj hfault ▸ h

theorem map {outcome : Except Fault α} (h : EndsOrderly refusals s (outcome, s')) (g : α → β) :
    EndsOrderly refusals s (outcome.map g, s') := by
  cases outcome with
  | error cause => exact .error h.behind (h.stopped rfl)
  | ok a => exact .ok _ h.behind

end EndsOrderly

/-- On every channel the reader moves forward, and stops for a reason. -/
def Orderly (r : Reader α) (refusals : Fault → Prop) : Prop :=
  ∀ s, EndsOrderly refusals s (r s)

namespace Orderly

theorem behind (hr : r.Orderly refusals) {outcome : Except Fault α} (h : r s = (outcome, s')) :
    s'.Behind s := by
  have hs := (hr s).behind
  rwa [h] at hs

theorem stopped (hr : r.Orderly refusals) (h : r s = (.error fault, s')) :
    Stopped refusals s s' fault := by
  have hs := hr s
  rw [h] at hs
  exact hs.stopped rfl

theorem mono (hr : r.Orderly refusals) (hmore : ∀ fault, refusals fault → more fault) :
    r.Orderly more :=
  fun s => ⟨(hr s).behind, fun h => ((hr s).stopped h).mono hmore⟩

theorem bind (hr : r.Orderly refusals) (hf : ∀ a, (f a).Orderly refusals) :
    (r >>= f).Orderly refusals := by
  intro s
  rcases h : r s with ⟨fault | a, s₁⟩
  · rw [bind_of_error h]
    exact .error (hr.behind h) (hr.stopped h)
  · rw [bind_of_ok h]
    exact (hf a s₁).of_behind (hr.behind h)

end Orderly

theorem orderly_pure (a : α) : Orderly (pure a) refusals :=
  fun s => .ok a (.refl s)

theorem orderly_fail (h : refusals fault) : Orderly (fail fault : Reader α) refusals :=
  fun s => .error (.refl s) (.refused h)

theorem orderly_lift {x : Except Fault α} (h : ∀ fault, x = .error fault → refusals fault) :
    (lift x).Orderly refusals := by
  rcases x with fault | a
  · exact orderly_fail (h fault rfl)
  · exact orderly_pure a

/-- A reader that only goes on with the value of one before. -/
theorem Orderly.map (hr : r.Orderly refusals) (g : α → β) :
    (r >>= fun a => pure (g a)).Orderly refusals :=
  hr.bind fun _ => orderly_pure _

/-! ### Bytes -/

theorem endsOrderly_readFull (n : Nat) (s : Source) : EndsOrderly refusals s (s.readFull n) := by
  by_cases hshort : s.pending.length < n
  · obtain ⟨s', hread, hend, hf⟩ := Source.readFull_of_short hshort
    have hs : s'.Behind s := ⟨hend ▸ List.nil_suffix, hf⟩
    rw [hread]
    cases hfailing : s.failing with
    | true => exact .error hs (.failed hfailing hend)
    | false => exact .error hs (.ended hfailing hend (List.suffix_refl _) hshort)
  · obtain ⟨s', hread, hp, hf⟩ := Source.readFull_of_le (Nat.le_of_not_lt hshort)
    rw [hread]
    exact .ok _ ⟨hp ▸ List.drop_suffix n _, hf⟩

theorem behind_of_readFull {n : Nat} {outcome : Except Fault Bytes}
    (h : s.readFull n = (outcome, s')) : s'.Behind s := by
  have hs : EndsOrderly (fun _ => True) s (s.readFull n) := endsOrderly_readFull n s
  rw [h] at hs
  exact hs.behind

theorem orderly_exactly (n : Nat) : (exactly n).Orderly refusals :=
  endsOrderly_readFull n

/-- What is left is read whole unless the channel fails. -/
theorem orderly_remaining : remaining.Orderly refusals := by
  intro s
  have hs : Source.Behind { s with pending := [], calls := s.calls + 1 } s :=
    ⟨List.nil_suffix, rfl⟩
  cases hfailing : s.failing with
  | true =>
    rw [remaining, Source.readAll, if_pos hfailing]
    exact .error hs (.failed hfailing rfl)
  | false =>
    rw [remaining, Source.readAll, if_neg (by simp [hfailing])]
    exact .ok _ hs

/-! ### Fields -/

/-- The faults of bytes that have no place in the format. -/
inductive Malformed : Fault → Prop where
  | format (cause : Malformation) : Malformed (.format cause)

open FixedWidth in
theorem take_eq_error {α : Type} [FixedWidth α] {bytes : Bytes} (h : take α bytes = .error fault) :
    fault = .format (refusal α bytes) := by
  unfold take at h
  split at h
  · split at h
    · contradiction
    · exact (Except.error.inj h).symm
  · exact (Except.error.inj h).symm

theorem orderly_value (α : Type) [FixedWidth α]
    (h : ∀ bytes, refusals (.format (FixedWidth.refusal α bytes))) : (value α).Orderly refusals :=
  (orderly_exactly _).bind fun bytes => orderly_lift fun _ hfault => take_eq_error hfault ▸ h bytes

/-- When the channel ends inside a number, the bytes told are all those of the number: the `seen`
ones stood on the channel before the others. -/
theorem endsOrderly_groups {bits left value : Nat} {seen : Bytes} {first s : Source}
    (h : ∀ cause, refusals (.format (.varInt cause))) (hp : first.pending = seen ++ s.pending)
    (hf : s.failing = first.failing) :
    EndsOrderly refusals first (groups bits left seen value s) := by
  -- what the channel loses with each byte is added to those seen, so `first` stays their whole
  induction left generalizing seen value s with
  | zero => exact .error ⟨⟨seen, hp.symm⟩, hf⟩ (.refused (h _))
  | succ left ih =>
    rcases hpending : s.pending with _ | ⟨b, rest⟩
    · obtain ⟨s₁, hread, hend, hf₁⟩ :=
        Source.readFull_of_short (n := 1) (s := s) (by simp [hpending])
      have hs₁ : s₁.Behind first := ⟨hend ▸ List.nil_suffix, hf₁.trans hf⟩
      have hseen : first.pending = seen := by rw [hp, hpending, List.append_nil]
      simp only [groups, hread]
      cases hfailing : s.failing with
      | true => exact .error hs₁ (.failed (hf ▸ hfailing) hend)
      | false =>
        have hlast : seen <:+ first.pending := hseen ▸ List.suffix_refl _
        exact .error hs₁ (.ended (hf ▸ hfailing) hend hlast (Nat.lt_succ_self _))
    · obtain ⟨s₁, hread, hp₁, hf₁⟩ := Source.readFull_of_le (n := 1) (s := s) (by simp [hpending])
      rw [hpending] at hread hp₁
      have hs₁ : first.pending = (seen ++ [b]) ++ s₁.pending := by
        rw [hp, hpending, hp₁, List.append_assoc]
        rfl
      have hbehind : s₁.Behind first := ⟨⟨_, hs₁.symm⟩, hf₁.trans hf⟩
      rcases ha : VarInt.accept bits seen.length value b with cause | n | n
      · simp only [groups, hread, List.take_succ_cons, List.take_zero, List.headD_cons, ha]
        exact .error hbehind (.refused (h _))
      · rw [groups_done hread ha]
        exact .ok n hbehind
      · rw [groups_more hread ha]
        exact ih hs₁ (hf₁.trans hf)

theorem orderly_groups {bits left : Nat} (h : ∀ cause, refusals (.format (.varInt cause))) :
    (groups bits left [] 0).Orderly refusals :=
  fun _ => endsOrderly_groups h rfl rfl

theorem orderly_varInt : varInt.Orderly Malformed :=
  (orderly_groups fun _ => .format _).map _

theorem orderly_varLong : varLong.Orderly Malformed :=
  (orderly_groups fun _ => .format _).map _

theorem orderly_text (limit : Nat) : (text limit).Orderly Malformed := by
  refine orderly_varInt.bind fun length => ?_
  refine Orderly.bind (orderly_lift fun fault h => ?_) fun n => ?_
  · unfold Text.checkLength at h
    split_ifs at h <;> exact Except.error.inj h ▸ .format _
  · refine (orderly_exactly n).bind fun bytes => orderly_lift fun fault h => ?_
    unfold Text.decode at h
    split at h
    · exact Except.error.inj h ▸ .format _
    · split at h
      · contradiction
      · exact Except.error.inj h ▸ .format _

theorem orderly_latin1From (acc : List Char) : Orderly (latin1From acc) refusals := by
  intro s
  -- each byte is read by itself, and the characters before it are on their way to the answer
  fun_induction latin1From acc s with
  | case1 acc s fault s₁ hread =>
    have hbyte : EndsOrderly refusals s (s.readFull 1) := endsOrderly_readFull 1 s
    rw [hread] at hbyte
    exact .error hbyte.behind (hbyte.stopped rfl)
  | case2 acc s bytes s₁ hread =>
    exact .ok _ (behind_of_readFull hread)
  | case3 acc s bytes s₁ hread _ _ _ ih =>
    exact ih.of_behind (behind_of_readFull hread)

theorem orderly_latin1 : latin1.Orderly refusals :=
  orderly_latin1From []

theorem orderly_blob : blob.Orderly Malformed := by
  refine orderly_varInt.bind fun length => ?_
  split
  · exact orderly_fail (.format _)
  · exact orderly_exactly _

theorem Orderly.optional (hr : r.Orderly refusals)
    (h : ∀ bytes, refusals (.format (.boolean bytes))) : (optional r).Orderly refusals := by
  refine (orderly_value Bool h).bind fun present => ?_
  split
  · exact hr.map some
  · exact orderly_pure none

end Reader

end MinecraftWire
