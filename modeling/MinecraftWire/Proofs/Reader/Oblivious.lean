import MinecraftWire.Proofs.Reader.Orderly

/-! Readers that do not see in which pieces a channel hands out its bytes. Channels are alike if
they hold the same bytes and end in the same way, whatever their schedules. An oblivious reader gets
the same from channels that are alike, and leaves them alike; this holds of reading a number of
bytes, and of all that is composed of such readers. -/

namespace MinecraftWire

universe u

/-- Two results tell the same and leave what is related. -/
structure Agree {β : Type u} {σ τ : Type} (R : σ → τ → Prop) (x : β × σ) (y : β × τ) : Prop where
  outcome : x.1 = y.1
  left : R x.2 y.2

namespace Source

/-- The same bytes are to come and the same end, in whatever pieces. -/
structure Alike (s t : Source) : Prop where
  pending : s.pending = t.pending
  failing : s.failing = t.failing

end Source

namespace Reader

variable {α β : Type} {r : Reader α} {f : α → Reader β} {s t s' : Source}

/-- From channels that are alike the reader gets the same, and they stay alike. -/
def Oblivious (r : Reader α) : Prop :=
  ∀ ⦃s t⦄, s.Alike t → Agree Source.Alike (r s) (r t)

/-- What one channel gives, the other gives. -/
theorem Oblivious.exists_of_eq (hr : r.Oblivious) (h : s.Alike t) {outcome : Except Fault α}
    (hs : r s = (outcome, s')) : ∃ t', r t = (outcome, t') ∧ s'.Alike t' := by
  obtain ⟨houtcome, hleft⟩ := hr h
  rw [hs] at houtcome hleft
  exact ⟨(r t).2, Prod.ext houtcome.symm rfl, hleft⟩

theorem oblivious_pure (a : α) : Oblivious (pure a) :=
  fun _ _ h => ⟨rfl, h⟩

theorem oblivious_fail (fault : Fault) : Oblivious (fail fault : Reader α) :=
  fun _ _ h => ⟨rfl, h⟩

theorem oblivious_lift (x : Except Fault α) : (lift x).Oblivious := by
  cases x with
  | error fault => exact oblivious_fail fault
  | ok a => exact oblivious_pure a

theorem Oblivious.bind (hr : r.Oblivious) (hf : ∀ a, (f a).Oblivious) : (r >>= f).Oblivious := by
  intro s t h
  rcases hs : r s with ⟨outcome, s'⟩
  obtain ⟨t', ht, h'⟩ := hr.exists_of_eq h hs
  rcases outcome with fault | a
  · rw [bind_of_error hs, bind_of_error ht]
    exact ⟨rfl, h'⟩
  · rw [bind_of_ok hs, bind_of_ok ht]
    exact hf a h'

theorem Oblivious.map (hr : r.Oblivious) (g : α → β) :
    (r >>= fun a => pure (g a)).Oblivious :=
  hr.bind fun _ => oblivious_pure _

/-! ### Bytes -/

theorem oblivious_exactly (n : Nat) : (exactly n).Oblivious := by
  intro s t h
  obtain ⟨s', hs, hsp, hsf⟩ := s.readFull_eq n
  obtain ⟨t', ht, htp, htf⟩ := t.readFull_eq n
  rw [exactly, hs, ht, h.pending, h.failing]
  exact ⟨rfl, by rw [hsp, htp, h.pending], by rw [hsf, htf, h.failing]⟩

theorem oblivious_remaining : remaining.Oblivious := by
  intro s t h
  simp only [remaining, Source.readAll, h.pending, h.failing]
  split <;> exact ⟨rfl, rfl, rfl⟩

/-! ### Fields -/

theorem oblivious_value (α : Type) [FixedWidth α] : (value α).Oblivious :=
  (oblivious_exactly _).bind fun _ => oblivious_lift _

theorem oblivious_groups (bits left : Nat) (seen : Bytes) (value : Nat) :
    (groups bits left seen value).Oblivious := by
  induction left generalizing seen value with
  | zero => exact oblivious_fail _
  | succ left ih =>
    intro s t h
    rcases hs : exactly 1 s with ⟨outcome, s'⟩
    obtain ⟨t', ht, h'⟩ := (oblivious_exactly 1).exists_of_eq h hs
    rw [exactly] at hs ht
    rcases outcome with fault | bytes
    · simp only [groups, hs, ht]
      cases fault <;> exact ⟨rfl, h'⟩
    · rcases ha : VarInt.accept bits seen.length value (bytes.headD 0) with fault | n | n <;>
        simp only [groups, hs, ht, ha]
      · exact ⟨rfl, h'⟩
      · exact ⟨rfl, h'⟩
      · exact ih _ _ h'

theorem oblivious_varInt : varInt.Oblivious :=
  (oblivious_groups ..).map _

theorem oblivious_varLong : varLong.Oblivious :=
  (oblivious_groups ..).map _

theorem oblivious_text (limit : Nat) : (text limit).Oblivious :=
  oblivious_varInt.bind fun _ => (oblivious_lift _).bind fun _ =>
    (oblivious_exactly _).bind fun _ => oblivious_lift _

theorem oblivious_latin1From (acc : List Char) : Oblivious (latin1From acc) := by
  intro s
  -- each byte is read by itself, and the channels stay alike behind it
  fun_induction latin1From acc s with
  | case1 acc s fault s' hread =>
    intro t h
    obtain ⟨t', ht, h'⟩ := (oblivious_exactly 1).exists_of_eq h hread
    rw [latin1From_of_error ht]
    exact ⟨rfl, h'⟩
  | case2 acc s bytes s' hread =>
    rename_i hzero
    intro t h
    obtain ⟨t', ht, h'⟩ := (oblivious_exactly 1).exists_of_eq h hread
    rw [latin1From_of_ok ht, if_pos hzero]
    exact ⟨rfl, h'⟩
  | case3 acc s bytes s' hread =>
    rename_i hzero ih
    intro t h
    obtain ⟨t', ht, h'⟩ := (oblivious_exactly 1).exists_of_eq h hread
    rw [latin1From_of_ok ht, if_neg hzero]
    exact ih h'

theorem oblivious_latin1 : latin1.Oblivious :=
  oblivious_latin1From []

theorem oblivious_blob : blob.Oblivious := by
  refine oblivious_varInt.bind fun length => ?_
  split
  · exact oblivious_fail _
  · exact oblivious_exactly _

theorem Oblivious.optional (hr : r.Oblivious) : (optional r).Oblivious := by
  refine (oblivious_value Bool).bind fun present => ?_
  split
  · exact hr.map some
  · exact oblivious_pure none

end Reader

end MinecraftWire
