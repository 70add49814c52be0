import MinecraftWire.Proofs.FixedWidth
import MinecraftWire.Proofs.VarInt.Form

/-! Readers on channels that may fail. What stands at the front of a channel is got, or is refused,
whatever follows: in which pieces the channel hands it out, where it ends, and how. -/

namespace MinecraftWire

namespace Reader

variable {α β : Type} {r : Reader α} {f : α → Reader β} {front next rest : Bytes} {a : α}
  {outcome : Except Fault β} {fault : Fault}

/-- From every channel that holds `front` and then `rest`, even one that fails behind them, the
reader gets the outcome and leaves exactly `rest`. -/
def Yields (r : Reader α) (front rest : Bytes) (outcome : Except Fault α) : Prop :=
  ∀ s : Source, s.pending = front ++ rest → ∃ s', r s = (outcome, s') ∧ s'.pending = rest

theorem yields_lift (x : Except Fault α) (rest : Bytes) : (lift x).Yields [] rest x :=
  fun s hp => ⟨s, by cases x <;> rfl, hp⟩

theorem yields_pure (a : α) (rest : Bytes) : Yields (pure a) [] rest (.ok a) :=
  yields_lift (.ok a) rest

theorem yields_fail (fault : Fault) (rest : Bytes) :
    Yields (fail fault : Reader α) [] rest (.error fault) :=
  yields_lift (.error fault) rest

theorem Yields.bind (hr : r.Yields front (next ++ rest) (.ok a))
    (hf : (f a).Yields next rest outcome) : (r >>= f).Yields (front ++ next) rest outcome := by
  intro s hp
  obtain ⟨s₁, h₁, hp₁⟩ := hr s (by rw [hp, List.append_assoc])
  obtain ⟨s₂, h₂, hp₂⟩ := hf s₁ hp₁
  exact ⟨s₂, by rw [bind_of_ok h₁, h₂], hp₂⟩

/-- A step that reads nothing more. -/
theorem Yields.bind_nil (hr : r.Yields front rest (.ok a)) (hf : (f a).Yields [] rest outcome) :
    (r >>= f).Yields front rest outcome := by
  have h : (r >>= f).Yields (front ++ []) rest outcome := Yields.bind hr hf
  rwa [List.append_nil] at h

/-- What is refused is refused whatever would have come next. -/
theorem Yields.fault_bind (h : r.Yields front rest (.error fault)) (f : α → Reader β) :
    (r >>= f).Yields front rest (.error fault) := by
  intro s hp
  obtain ⟨s', hr, hrest⟩ := h s hp
  exact ⟨s', bind_of_error hr, hrest⟩

theorem yields_exactly (front rest : Bytes) :
    (exactly front.length).Yields front rest (.ok front) := by
  intro s hp
  obtain ⟨s', hr, hp', -⟩ := Source.readFull_of_le (n := front.length) (s := s) (by simp [hp])
  exact ⟨s', by simp [exactly, hr, hp], by simp [hp', hp]⟩

open FixedWidth in
theorem yields_value {α : Type} [FixedWidth α] [Lawful α] (v : α) (rest : Bytes) :
    (value α).Yields (put v) rest (.ok v) := by
  have h := (yields_exactly (put v) rest).bind_nil (f := fun bytes => lift (take α bytes))
    (yields_lift (take α (put v)) rest)
  rwa [length_put, take_put] at h

/-- What fails has failed in its first part, or in the second behind it. -/
theorem bind_eq_error {s s' : Source} (h : (r >>= f) s = (.error fault, s')) :
    r s = (.error fault, s') ∨ ∃ a s₁, r s = (.ok a, s₁) ∧ f a s₁ = (.error fault, s') := by
  rcases hr : r s with ⟨fault' | a, s₁⟩
  · rw [bind_of_error hr] at h
    obtain ⟨hfault, rfl⟩ := Prod.mk.inj h
    rw [Except.error.inj hfault]
    exact .inl rfl
  · rw [bind_of_ok hr] at h
    exact .inr ⟨a, s₁, rfl, h⟩

theorem bind_assoc {γ : Type} (r : Reader α) (f : α → Reader β) (g : β → Reader γ) :
    r >>= f >>= g = r >>= fun a => f a >>= g := by
  funext s
  rcases h : r s with ⟨fault | a, s'⟩
  · rw [bind_of_error h, bind_of_error (bind_of_error h)]
  · rw [bind_of_ok h]
    rcases hf : f a s' with ⟨fault | b, s₁⟩
    · rw [bind_of_error hf, bind_of_error ((bind_of_ok h).trans hf)]
    · rw [bind_of_ok hf, bind_of_ok ((bind_of_ok h).trans hf)]

open FixedWidth in
/-- A value that is read stood at the front of the channel. -/
theorem pending_of_value {α : Type} [FixedWidth α] [Canonical α] {v : α} {s s' : Source}
    (h : value α s = (.ok v, s')) : s.pending = put v ++ s'.pending := by
  obtain ⟨bytes, s₁, hread, hlift⟩ := bind_eq_ok h
  obtain ⟨hle, rfl, hp, -⟩ := Source.readFull_eq_ok hread
  have hlength : (s.pending.take (size α)).length = size α := List.length_take_of_le hle
  have hword := Bytes.toNat_lt (s.pending.take (size α))
  rw [hlength] at hword
  rcases hv : ofWord? (α := α) (Bytes.toNat (s.pending.take (size α))) with _ | v'
  · simp [take, hlength, hv, lift, fail] at hlift
  · simp only [take, hlength, hv, if_true] at hlift
    obtain ⟨hok, rfl⟩ := Prod.mk.inj hlift
    obtain rfl := Except.ok.inj hok
    have hbytes := Bytes.ofNat_toNat (s.pending.take (size α))
    rw [hlength] at hbytes
    rw [put_of_ofWord? hv hword, hbytes, hp, List.take_append_drop]

/-- A number that peeking finds is read from any channel. -/
theorem groups_of_peekFrom {bits left value n taken : Nat} {seen : Bytes} {s : Source}
    (h : VarInt.peekFrom bits left seen.length value s.pending = .ok (some (n, taken))) :
    ∃ s', groups bits left seen value s = (.ok n, s') ∧
      s'.pending = s.pending.drop (taken - seen.length) := by
  induction left generalizing seen value s with
  | zero => simp [VarInt.peekFrom] at h
  | succ left ih =>
    rcases hp : s.pending with _ | ⟨b, rest⟩
    · simp [hp, VarInt.peekFrom] at h
    obtain ⟨s₁, hr, hp₁, -⟩ := Source.readFull_of_le (n := 1) (s := s) (by simp [hp])
    rw [hp] at hr hp₁ h
    rw [VarInt.peekFrom] at h
    rcases ha : VarInt.accept bits seen.length value b with fault | m | m <;> rw [ha] at h
    · contradiction
    · obtain ⟨rfl, rfl⟩ := Prod.mk.inj (Option.some.inj (Except.ok.inj h))
      exact ⟨s₁, groups_done hr ha, by rw [hp₁, Nat.add_sub_cancel_left]⟩
    · -- the rest of the number is read behind one byte more
      have hlater : VarInt.peekFrom bits left (seen ++ [b]).length m s₁.pending =
          .ok (some (n, taken)) := by
        rw [hp₁, List.length_append]
        exact h
      obtain ⟨s', hgroups, hrest⟩ := ih hlater
      have htaken := (VarInt.length_of_peekFrom hlater).1
      rw [List.length_append, List.length_singleton] at htaken hrest
      refine ⟨s', by rw [groups_more hr ha, hgroups], ?_⟩
      rw [hrest, hp₁, show taken - seen.length = taken - (seen.length + 1) + 1 by omega]
      rfl

end Reader

namespace VarInt

variable {α : Type} {k : Kind α} {a : α} {form : Bytes}

theorem Kind.yields (h : k.IsForm form a) (rest : Bytes) : k.reader.Yields form rest (.ok a) := by
  intro s hp
  obtain ⟨hform, rfl⟩ := Kind.isForm_iff.mp h
  have hpeek : peekFrom k.bits k.most ([] : Bytes).length 0 s.pending =
      .ok (some (0 + total form <<< (7 * 0), 0 + form.length)) := by
    rw [hp]
    exact Width.peekFrom_of_form (Nat.zero_add k.most) hform rest
  obtain ⟨s', hgroups, hrest⟩ := Reader.groups_of_peekFrom hpeek
  refine ⟨s', ?_, by rw [hrest, hp]; simp⟩
  rw [k.reader_eq, k.maxLength_bits, Reader.bind_of_ok hgroups]
  simp [pure, Reader.pure]

end VarInt

end MinecraftWire
