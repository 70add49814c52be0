import MinecraftWire.Text.Field

/-! Readers on a channel. What a reader gets from a channel does not depend on the pieces in which the
channel hands its bytes out. `Takes` says that a reader takes a given byte string off the front of a
channel and leaves what follows; it is composed along `bind`. -/

namespace MinecraftWire

/-! ### Reading a number of bytes -/

namespace Source

/-- A call at the end of the channel. -/
theorem read_of_nil {room : Nat} {s : Source} (hp : s.pending = []) : s.read room =
    (if s.failing then .error (.channel .source) else .ok [], { s with calls := s.calls + 1 }) := by
  simp [read, hp]

/-- A call hands out at least one byte where one is left, and at most as many as it is asked for. -/
theorem read_eq_ok {room : Nat} {s : Source} (hroom : room ≠ 0) (hp : s.pending ≠ []) :
    ∃ b got s', s.read room = (.ok (b :: got), s') ∧ got.length + 1 ≤ room ∧
      s.pending = b :: got ++ s'.pending ∧ s'.failing = s.failing := by
  obtain ⟨most, hmost⟩ : ∃ most, min room (s.grant s.calls + 1) = most + 1 :=
    Nat.exists_eq_succ_of_ne_zero (by omega)
  rcases hpending : s.pending with _ | ⟨b, rest⟩
  · exact absurd hpending hp
  refine ⟨b, rest.take most, { s with pending := rest.drop most, calls := s.calls + 1 }, ?_, ?_, ?_,
    rfl⟩
  · simp [read, hpending, hmost]
  · rw [List.length_take]
    omega
  · rw [List.cons_append, List.take_append_drop]

/-- Behind the bytes that a call hands out so many fewer are wanted. -/
theorem wanted_append {n : Nat} {got : Bytes} (h : got.length ≤ n) (rest : Bytes) :
    (got ++ rest).take n = got ++ rest.take (n - got.length) ∧
      (got ++ rest).drop n = rest.drop (n - got.length) ∧
      ((got ++ rest).length < n ↔ rest.length < n - got.length) := by
  refine ⟨?_, ?_, ?_⟩
  · rw [List.take_append, List.take_of_length_le h]
  · rw [List.drop_append, List.drop_of_length_le h, List.nil_append]
  · rw [List.length_append]
    omega

/-- The bytes come in whatever pieces the channel grants, and all of them come unless the channel
fails before. -/
theorem collect_eq (n : Nat) (acc : Bytes) (s : Source) :
    ∃ s', s.collect n acc =
        (if s.pending.length < n ∧ s.failing then .error (.channel .source)
          else .ok ((s.pending.take n).reverse ++ acc), s') ∧
      s'.pending = s.pending.drop n ∧ s'.failing = s.failing := by
  induction n using Nat.strongRecOn generalizing acc s with
  | ind n ih =>
    rw [collect]
    by_cases hn : n = 0
    · subst hn
      exact ⟨s, by simp, by simp, rfl⟩
    rw [if_neg hn]
    by_cases hp : s.pending = []
    · refine ⟨{ s with calls := s.calls + 1 }, ?_, by simp [hp], rfl⟩
      rw [read_of_nil hp]
      cases s.failing <;> simp [hp, Nat.pos_of_ne_zero hn]
    -- after a call the rest is wanted from the bytes behind those that it handed out
    obtain ⟨b, got, s₁, hread, hroom, hpending, hfailing⟩ := read_eq_ok hn hp
    have hgot : (b :: got).length ≤ n := hroom
    obtain ⟨s', hs, hp', hf'⟩ := ih (n - (got.length + 1)) (by omega) (got.reverseAux (b :: acc)) s₁
    obtain ⟨htake, hdrop, hshort⟩ := wanted_append hgot s₁.pending
    rw [← hpending] at htake hdrop hshort
    refine ⟨s', ?_, hp'.trans hdrop.symm, hf'.trans hfailing⟩
    rw [hread]
    dsimp only
    rw [hs]
    simp [hshort, htake, hfailing, List.reverseAux_eq]

/-- The first bytes are read and the others left; without enough of them all are taken, and told
unless the channel fails. -/
theorem readFull_eq (n : Nat) (s : Source) :
    ∃ s', s.readFull n =
        (if n ≤ s.pending.length then .ok (s.pending.take n)
          else .error (if s.failing then .channel .source else .unexpectedEnd n s.pending), s') ∧
      s'.pending = s.pending.drop n ∧ s'.failing = s.failing := by
  obtain ⟨s', hs, hp, hf⟩ := collect_eq n [] s
  refine ⟨s', ?_, hp, hf⟩
  rw [readFull, hs]
  by_cases hn : n ≤ s.pending.length
  · rw [if_neg (by omega), if_pos hn]
    simp [Nat.min_eq_left hn]
  · have hshort : s.pending.length < n := Nat.lt_of_not_le hn
    rw [if_neg hn, List.take_of_length_le (Nat.le_of_lt hshort)]
    cases s.failing <;> simp [hshort]

theorem readFull_of_le {n : Nat} {s : Source} (h : n ≤ s.pending.length) :
    ∃ s', s.readFull n = (.ok (s.pending.take n), s') ∧ s'.pending = s.pending.drop n ∧
      s'.failing = s.failing := by
  have hread := readFull_eq n s
  rwa [if_pos h] at hread

/-- Asked for more than there is, the channel gives what it has up to its end, or fails there. -/
theorem readFull_of_short {n : Nat} {s : Source} (h : s.pending.length < n) :
    ∃ s', s.readFull n =
        (.error (if s.failing then .channel .source else .unexpectedEnd n s.pending), s') ∧
      s'.pending = [] ∧ s'.failing = s.failing := by
  have hread := readFull_eq n s
  rwa [if_neg (Nat.not_le_of_lt h), List.drop_of_length_le (Nat.le_of_lt h)] at hread

theorem readFull_eq_ok {n : Nat} {s s' : Source} {bytes : Bytes} (h : s.readFull n = (.ok bytes, s')) :
    n ≤ s.pending.length ∧ bytes = s.pending.take n ∧ s'.pending = s.pending.drop n ∧
      s'.failing = s.failing := by
  have hn := length_of_readFull h
  obtain ⟨s₁, hr, hp, hf⟩ := readFull_of_le (n := n) (s := s) (by omega)
  rw [hr] at h
  obtain ⟨hok, rfl⟩ := Prod.mk.inj h
  exact ⟨by omega, (Except.ok.inj hok).symm, hp, hf⟩

theorem readFull_of_lt {n : Nat} {s : Source} (h : s.pending.length < n) (hs : s.failing = false) :
    ∃ s', s.readFull n = (.error (.unexpectedEnd n s.pending), s') ∧ s'.pending = [] := by
  obtain ⟨s', hread, hend, -⟩ := readFull_of_short h
  exact ⟨s', by rw [hread, hs]; rfl, hend⟩

/-- No call is made where nothing is wanted. -/
theorem readFull_zero (s : Source) : s.readFull 0 = (.ok [], s) := by
  simp [readFull, collect]

end Source

namespace Reader

variable {α β : Type}

theorem bind_of_ok {r : Reader α} {f : α → Reader β} {s s' : Source} {a : α}
    (h : r s = (.ok a, s')) : (r >>= f) s = f a s' := by
  change Reader.bind r f s = _
  rw [Reader.bind, h]

theorem bind_of_error {r : Reader α} {f : α → Reader β} {s s' : Source} {fault : Fault}
    (h : r s = (.error fault, s')) : (r >>= f) s = (.error fault, s') := by
  change Reader.bind r f s = _
  rw [Reader.bind, h]

/-- What fails when its answer is mapped has failed before. -/
theorem of_map_error {r : Reader α} {f : α → β} {s s' : Source} {fault : Fault}
    (h : (r >>= fun a => pure (f a)) s = (.error fault, s')) : r s = (.error fault, s') := by
  rcases hr : r s with ⟨fault' | a, s₁⟩
  · rw [bind_of_error hr] at h
    obtain ⟨hfault, rfl⟩ := Prod.mk.inj h
    rw [Except.error.inj hfault]
  · rw [bind_of_ok hr] at h
    exact absurd (congrArg Prod.fst h) (by simp [pure, Reader.pure])

theorem run_eq_ok {r : Reader α} {bytes rest : Bytes} {a : α} (h : r.run bytes = (.ok a, rest)) :
    ∃ s', r (.ofBytes bytes) = (.ok a, s') ∧ s'.pending = rest := by
  obtain ⟨hok, hrest⟩ := Prod.mk.inj h
  exact ⟨(r (.ofBytes bytes)).2, Prod.ext hok rfl, hrest⟩

/-! ### Taking a byte string off a channel -/

/-- From a channel that holds `front` and then `rest`, and hands them out in any pieces, the reader
gets `a` and leaves exactly `rest`. -/
def Takes (r : Reader α) (front rest : Bytes) (a : α) : Prop :=
  ∀ s : Source, s.failing = false → s.pending = front ++ rest →
    ∃ s', r s = (.ok a, s') ∧ s'.pending = rest ∧ s'.failing = false

theorem Takes.run {r : Reader α} {front rest : Bytes} {a : α} (h : r.Takes front rest a) :
    r.run (front ++ rest) = (.ok a, rest) := by
  obtain ⟨s', hr, hp, -⟩ := h (.ofBytes (front ++ rest)) rfl rfl
  simp [Reader.run, hr, hp]

theorem Takes.run_all {r : Reader α} {front : Bytes} {a : α} (h : r.Takes front [] a) :
    r.run front = (.ok a, []) := by
  simpa using h.run

theorem takes_pure (a : α) (rest : Bytes) : Takes (pure a) [] rest a :=
  fun s hf hp => ⟨s, rfl, by simpa using hp, hf⟩

theorem takes_lift {x : Except Fault α} {a : α} (h : x = .ok a) (rest : Bytes) :
    (lift x).Takes [] rest a := by
  subst h
  exact takes_pure a rest

theorem Takes.bind {r : Reader α} {f : α → Reader β} {front next rest : Bytes} {a : α} {b : β}
    (hr : r.Takes front (next ++ rest) a) (hf : (f a).Takes next rest b) :
    (r >>= f).Takes (front ++ next) rest b := by
  intro s hs hp
  obtain ⟨s₁, h₁, hp₁, hs₁⟩ := hr s hs (by rw [hp, List.append_assoc])
  obtain ⟨s₂, h₂, hp₂, hs₂⟩ := hf s₁ hs₁ hp₁
  exact ⟨s₂, by rw [bind_of_ok h₁, h₂], hp₂, hs₂⟩

/-- A step that takes nothing more. -/
theorem Takes.bind_nil {r : Reader α} {f : α → Reader β} {front rest : Bytes} {a : α} {b : β}
    (hr : r.Takes front rest a) (hf : (f a).Takes [] rest b) : (r >>= f).Takes front rest b := by
  have h : (r >>= f).Takes (front ++ []) rest b := Takes.bind hr hf
  rwa [List.append_nil] at h

/-- A check before the first byte. -/
theorem Takes.lift_bind {x : Except Fault α} {f : α → Reader β} {front rest : Bytes} {a : α} {b : β}
    (hx : x = .ok a) (hf : (f a).Takes front rest b) : (lift x >>= f).Takes front rest b := by
  subst hx
  exact hf

theorem Takes.map {r : Reader α} {front rest : Bytes} {a : α} (h : r.Takes front rest a)
    (f : α → β) : (r >>= fun a => pure (f a)).Takes front rest (f a) :=
  h.bind_nil (takes_pure _ _)

theorem takes_exactly (front rest : Bytes) : (exactly front.length).Takes front rest front := by
  intro s hs hp
  obtain ⟨s', hr, hp', hf⟩ := Source.readFull_of_le (n := front.length) (s := s) (by simp [hp])
  exact ⟨s', by simp [exactly, hr, hp], by simp [hp', hp], by rw [hf, hs]⟩

theorem takes_remaining (front : Bytes) : remaining.Takes front [] front := by
  intro s hs hp
  refine ⟨{ s with pending := [], calls := s.calls + 1 }, ?_, rfl, hs⟩
  simp [remaining, Source.readAll, hs, hp]

/-! ### Single bytes of a text -/

theorem latin1From_of_error {acc : List Char} {s s' : Source} {fault : Fault}
    (h : s.readFull 1 = (.error fault, s')) : latin1From acc s = (.error fault, s') := by
  rw [latin1From]
  split <;> rename_i h' <;> rw [h] at h' <;> cases h'
  rfl

/-- A zero byte ends the text, any other is a character of it. -/
theorem latin1From_of_ok {acc : List Char} {s s' : Source} {bytes : Bytes}
    (h : s.readFull 1 = (.ok bytes, s')) : latin1From acc s =
      if bytes.headD 0 = 0 then (.ok (String.ofList acc.reverse), s')
      else latin1From (Char.ofNat (bytes.headD 0).toNat :: acc) s' := by
  rw [latin1From]
  split <;> rename_i h' <;> rw [h] at h' <;> cases h'
  rfl

end Reader

end MinecraftWire
