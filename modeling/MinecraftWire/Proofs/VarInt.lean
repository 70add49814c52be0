import Mathlib.Tactic.Ring
import MinecraftWire.Proofs.Reader

/-! Variable-length integers. Reading gives back the number that was written, whatever follows it.
What a reader finds at the front of a byte string does not change when bytes are added at its end,
except that an unfinished number may go on. -/

namespace MinecraftWire

namespace VarInt

theorem ofNat_ne_nil (n : Nat) : ofNat n ≠ [] := by
  rw [ofNat]
  split <;> simp

theorem encode_ne_nil (v : Int32) : encode v ≠ [] :=
  ofNat_ne_nil _

/-! ### One group -/

theorem toNat_last {n : Nat} (hn : n < 128) : (UInt8.ofNat n).toNat = n :=
  UInt8.toNat_ofNat_of_lt' (Nat.lt_trans hn (by decide))

theorem toNat_more (n : Nat) : (UInt8.ofNat (n % 128 + 128)).toNat = n % 128 + 128 :=
  UInt8.toNat_ofNat_of_lt' (Nat.add_lt_add_right (Nat.mod_lt n (by decide)) 128)

/-- A number that fits into the bits that are left is finished by its last group. -/
theorem accept_last {bits seen value n : Nat} (hn : n < 128) (hfit : n < 2 ^ (bits - 7 * seen)) :
    accept bits seen value (UInt8.ofNat n) = .ok (.done (value + n <<< (7 * seen))) := by
  have hz : n >>> (bits - 7 * seen) = 0 := by
    rw [Nat.shiftRight_eq_div_pow]
    exact Nat.div_eq_of_lt hfit
  simp [accept, toNat_last hn, Nat.mod_eq_of_lt hn, hz, hn]

theorem accept_more {bits seen value n : Nat} (hn : 128 ≤ n) (hfit : n < 2 ^ (bits - 7 * seen)) :
    accept bits seen value (UInt8.ofNat (n % 128 + 128)) =
      .ok (.more (value + (n % 128) <<< (7 * seen))) := by
  have hroom : ¬ bits < 7 * seen + 7 := by
    intro h
    have := Nat.pow_le_pow_right (n := 2) (by omega) (show bits - 7 * seen ≤ 7 by omega)
    omega
  have hgroup : (n % 128 + 128) % 128 = n % 128 := by omega
  rw [accept, toNat_more, hgroup, if_neg (fun h => hroom h.1), if_neg (by omega)]

theorem le_of_accept_more {bits seen value n : Nat} {b : UInt8}
    (h : accept bits seen value b = .ok (.more n)) : 128 ≤ b.toNat := by
  unfold accept at h
  dsimp only at h
  split at h
  · contradiction
  · split at h
    · simp at h
    · omega

/-- The bits left behind a group hold the rest of the number. -/
theorem div_lt_of_lt {bits seen n : Nat} (hn : 128 ≤ n) (hfit : n < 2 ^ (bits - 7 * seen)) :
    n / 128 < 2 ^ (bits - 7 * (seen + 1)) ∧ 7 * (seen + 1) < bits := by
  have hroom : 7 < bits - 7 * seen := by
    by_contra h
    have := Nat.pow_le_pow_right (n := 2) (by omega) (show bits - 7 * seen ≤ 7 by omega)
    omega
  refine ⟨?_, by omega⟩
  rw [show bits - 7 * seen = bits - 7 * (seen + 1) + 7 by omega, Nat.pow_add] at hfit
  exact Nat.div_lt_of_lt_mul (by omega)

theorem add_shift (value shift n : Nat) :
    value + (n % 128) <<< shift + (n / 128) <<< (shift + 7) = value + n <<< shift := by
  simp only [Nat.shiftLeft_eq, Nat.pow_add, Nat.add_assoc, Nat.add_left_cancel_iff]
  calc n % 128 * 2 ^ shift + n / 128 * (2 ^ shift * 2 ^ 7)
      = (n % 128 + 128 * (n / 128)) * 2 ^ shift := by ring
    _ = n * 2 ^ shift := by rw [Nat.mod_add_div]

/-! ### Prefixes -/

/-- Bytes added at the end change nothing about a number that is finished or broken. -/
theorem peekFrom_append {bits left seen value : Nat} {bytes : Bytes} (ext : Bytes)
    (h : peekFrom bits left seen value bytes ≠ .ok none) :
    peekFrom bits left seen value (bytes ++ ext) = peekFrom bits left seen value bytes := by
  induction left generalizing seen value bytes with
  | zero => rw [peekFrom, peekFrom]
  | succ left ih =>
    cases bytes with
    | nil => exact absurd rfl h
    | cons b bytes =>
      rw [List.cons_append, peekFrom, peekFrom]
      rw [peekFrom] at h
      rcases hb : accept bits seen value b with fault | n | n
      · rfl
      · rfl
      · rw [hb] at h
        exact ih h

theorem length_of_peekFrom {bits left seen value n taken : Nat} {bytes : Bytes}
    (h : peekFrom bits left seen value bytes = .ok (some (n, taken))) :
    seen < taken ∧ taken ≤ seen + bytes.length := by
  induction left generalizing seen value bytes with
  | zero => simp [peekFrom] at h
  | succ left ih =>
    cases bytes with
    | nil => simp [peekFrom] at h
    | cons b bytes =>
      rw [peekFrom] at h
      rw [List.length_cons]
      rcases hb : accept bits seen value b with fault | m | m
      · simp [hb] at h
      · simp only [hb, Except.ok.injEq, Option.some.injEq, Prod.mk.injEq] at h
        omega
      · rw [hb] at h
        have := ih h
        omega

theorem peek_append {bytes : Bytes} (ext : Bytes) (h : peek bytes ≠ .ok none) :
    peek (bytes ++ ext) = peek bytes := by
  have hfrom : peekNat 32 bytes ≠ .ok none := by
    intro hnone
    exact h (by rw [peek, hnone]; rfl)
  rw [peek, peek, peekNat, peekFrom_append ext hfrom, peekNat]

theorem length_of_peek {bytes : Bytes} {v : Int32} {taken : Nat}
    (h : peek bytes = .ok (some (v, taken))) : 0 < taken ∧ taken ≤ bytes.length := by
  unfold peek peekNat at h
  rcases hfrom : peekFrom 32 (maxLength 32) 0 0 bytes with fault | _ | ⟨n, k⟩
  · simp [hfrom, Except.map] at h
  · simp [hfrom, Except.map] at h
  · have hk := length_of_peekFrom hfrom
    simp only [hfrom, Except.map, Option.map_some, Except.ok.injEq, Option.some.injEq,
      Prod.mk.injEq] at h
    omega

/-- A number that is finished does not need the bytes behind it. -/
theorem peekFrom_take {bits left seen value n taken : Nat} {bytes : Bytes}
    (h : peekFrom bits left seen value bytes = .ok (some (n, taken))) :
    peekFrom bits left seen value (bytes.take (taken - seen)) = .ok (some (n, taken)) := by
  induction left generalizing seen value bytes with
  | zero => simp [peekFrom] at h
  | succ left ih =>
    cases bytes with
    | nil => simp [peekFrom] at h
    | cons b bytes =>
      have htaken := (length_of_peekFrom h).1
      rw [show taken - seen = taken - (seen + 1) + 1 by omega, List.take_succ_cons]
      rw [peekFrom] at h ⊢
      rcases ha : accept bits seen value b with fault | m | m
      · simp [ha] at h
      · rwa [ha] at h
      · rw [ha] at h
        exact ih h

theorem peek_take_append {bytes : Bytes} {v : Int32} {taken : Nat}
    (h : peek bytes = .ok (some (v, taken))) (rest : Bytes) :
    peek (bytes.take taken ++ rest) = .ok (some (v, taken)) := by
  have htake : peek (bytes.take taken) = .ok (some (v, taken)) := by
    unfold peek peekNat at h ⊢
    rcases hfrom : peekFrom 32 (maxLength 32) 0 0 bytes with fault | _ | ⟨n, k⟩
    · simp [hfrom, Except.map] at h
    · simp [hfrom, Except.map] at h
    · rw [hfrom] at h
      obtain ⟨hv, rfl⟩ := Prod.mk.inj (Option.some.inj (Except.ok.inj h))
      have := peekFrom_take hfrom
      rw [Nat.sub_zero] at this
      rw [this]
      exact h
  rw [peek_append rest (by simp [htake]), htake]

/-- Within the width a group that announces another is never refused, so bytes end inside a number
exactly if they are fewer than it may have and each announces another. -/
theorem peekFrom_eq_none_iff {bits left seen value : Nat} {bytes : Bytes}
    (hbits : 7 * (seen + left) < bits + 7) :
    peekFrom bits left seen value bytes = .ok none ↔
      bytes.length < left ∧ ∀ b ∈ bytes, 128 ≤ b.toNat := by
  induction left generalizing seen value bytes with
  | zero => simp [peekFrom]
  | succ left ih =>
    cases bytes with
    | nil => simp [peekFrom]
    | cons b bytes =>
      rw [peekFrom, List.length_cons, List.forall_mem_cons]
      by_cases hb : b.toNat < 128
      · rcases ha : accept bits seen value b with fault | n | n
        · simp [hb]
        · simp [hb]
        · exact absurd (le_of_accept_more ha) (by omega)
      · cases left with
        | zero =>
          rcases accept bits seen value b with fault | n | n <;> simp [peekFrom]
        | succ left =>
          have hroom : ¬ bits < 7 * seen + 7 := by omega
          rw [accept, if_neg fun h => hroom h.1, if_neg hb]
          dsimp only
          rw [ih (by omega)]
          simp only [Nat.add_lt_add_iff_right]
          exact and_congr_right fun _ => (and_iff_right (by omega)).symm

theorem peek_eq_none_iff {bytes : Bytes} :
    peek bytes = .ok none ↔ bytes.length < maxLength 32 ∧ ∀ b ∈ bytes, 128 ≤ b.toNat := by
  have hfrom : peek bytes = .ok none ↔ peekFrom 32 (maxLength 32) 0 0 bytes = .ok none := by
    unfold peek peekNat
    rcases peekFrom 32 (maxLength 32) 0 0 bytes with fault | _ | found <;> simp [Except.map]
  rw [hfrom, peekFrom_eq_none_iff (by decide)]

end VarInt

/-! ### Reading from a channel -/

namespace Reader

open VarInt

theorem groups_done {bits left value n : Nat} {seen : Bytes} {b : UInt8} {s s' : Source}
    (h : s.readFull 1 = (.ok [b], s')) (ha : accept bits seen.length value b = .ok (.done n)) :
    groups bits (left + 1) seen value s = (.ok n, s') := by
  simp [groups, h, ha]

theorem groups_more {bits left value n : Nat} {seen : Bytes} {b : UInt8} {s s' : Source}
    (h : s.readFull 1 = (.ok [b], s')) (ha : accept bits seen.length value b = .ok (.more n)) :
    groups bits (left + 1) seen value s = groups bits left (seen ++ [b]) n s' := by
  simp [groups, h, ha]

/-- The groups of a number that fits into the bits that are left; `left` allows for all these bits. -/
theorem takes_groups (bits n left : Nat) (seen : Bytes) (value : Nat) (rest : Bytes)
    (hfit : n < 2 ^ (bits - 7 * seen.length)) (hseen : 7 * seen.length < bits)
    (hleft : bits ≤ 7 * (seen.length + left)) :
    (groups bits left seen value).Takes (ofNat n) rest (value + n <<< (7 * seen.length)) := by
  induction n using Nat.strongRecOn generalizing left seen value with
  | ind n ih =>
    intro s hs hp
    obtain ⟨left, rfl⟩ : ∃ k, left = k + 1 := ⟨left - 1, by omega⟩
    obtain ⟨s₁, hr, hp₁, hs₁⟩ := Source.readFull_of_le (n := 1) (s := s) (by
      have := List.length_pos_iff.mpr (ofNat_ne_nil n)
      rw [hp, List.length_append]
      omega)
    rw [ofNat] at hp
    split at hp
    · rename_i hn
      rw [hp] at hr hp₁
      exact ⟨s₁, groups_done hr (accept_last hn hfit), hp₁, by rw [hs₁, hs]⟩
    · rename_i hn
      rw [hp] at hr hp₁
      obtain ⟨hfit', hseen'⟩ := div_lt_of_lt (by omega) hfit
      obtain ⟨s₂, hr₂, hp₂, hs₂⟩ := ih (n / 128) (by omega) left
        (seen ++ [UInt8.ofNat (n % 128 + 128)]) (value + (n % 128) <<< (7 * seen.length))
        (by simpa using hfit') (by simpa using hseen') (by simp; omega) s₁ (by rw [hs₁, hs]) hp₁
      refine ⟨s₂, ?_, hp₂, hs₂⟩
      rw [groups_more hr (accept_more (by omega) hfit), hr₂, List.length_append,
        List.length_singleton, Nat.mul_add, add_shift]

theorem takes_varInt (v : Int32) (rest : Bytes) : varInt.Takes (encode v) rest v := by
  have hv : v.toUInt32.toNat < 2 ^ 32 := v.toUInt32.toNat_lt
  have hg := takes_groups 32 v.toUInt32.toNat 5 [] 0 rest hv (by simp) (by simp)
  have hint : int32OfNat (0 + v.toUInt32.toNat <<< (7 * ([] : Bytes).length)) = v := by
    simp [int32OfNat]
  have hm := hg.map int32OfNat
  rwa [hint] at hm

/-- What reading makes of a channel on which peeking has found the given thing, behind the bytes `seen`
of the same number: the number, and no byte behind it; the end of a channel that ends inside; or the
fault. -/
def ReadsPeeked {α : Type} (seen : Bytes) (s : Source) (result : Except Fault α × Source) :
    Except VarInt.Fault (Option (α × Nat)) → Prop
  | .ok (some (a, taken)) => ∃ s', result = (.ok a, s') ∧
      s'.pending = s.pending.drop (taken - seen.length) ∧ s'.failing = false
  | .ok none => ∃ s', result = (.error (.unexpectedEnd (seen.length + s.pending.length + 1)
      (seen ++ s.pending)), s') ∧ s'.pending = []
  | .error fault => ∃ s', result = (.error (.format (.varInt fault)), s')

theorem readsPeeked_groups (bits left : Nat) (seen : Bytes) (value : Nat) (s : Source)
    (hs : s.failing = false) :
    ReadsPeeked seen s (groups bits left seen value s)
      (peekFrom bits left seen.length value s.pending) := by
  induction left generalizing seen value s with
  | zero => exact ⟨s, rfl⟩
  | succ left ih =>
    rcases hp : s.pending with _ | ⟨b, rest⟩
    · obtain ⟨s', hr, hp'⟩ := Source.readFull_of_lt (n := 1) (s := s) (by simp [hp]) hs
      exact ⟨s', by simp [groups, hr, hp], hp'⟩
    · obtain ⟨s₁, hr, hp₁, hs₁⟩ := Source.readFull_of_le (n := 1) (s := s) (by simp [hp])
      rw [hp] at hr hp₁
      rw [peekFrom]
      rcases ha : accept bits seen.length value b with fault | n | n
      · exact ⟨s₁, by simp [groups, hr, ha]⟩
      · refine ⟨s₁, groups_done hr ha, ?_, by rw [hs₁, hs]⟩
        rw [hp₁, hp, Nat.add_sub_cancel_left]
      · -- the rest of the number is read behind one byte more
        have hlater := ih (seen ++ [b]) n s₁ (by rw [hs₁, hs])
        rw [List.length_append, List.length_singleton, hp₁, List.drop_succ_cons,
          List.drop_zero] at hlater
        rw [groups_more hr ha]
        dsimp only
        rcases hfound : peekFrom bits left (seen.length + 1) n rest with fault | _ | ⟨m, taken⟩
        · rwa [hfound] at hlater
        · rw [hfound] at hlater
          obtain ⟨s', hresult, hp'⟩ := hlater
          refine ⟨s', ?_, hp'⟩
          rw [hresult, hp, hp₁]
          simp [Nat.add_comm, Nat.add_left_comm]
        · rw [hfound] at hlater
          obtain ⟨s', hresult, hp', hs'⟩ := hlater
          have htaken := (length_of_peekFrom hfound).1
          refine ⟨s', hresult, ?_, hs'⟩
          rw [hp', hp₁, hp, List.length_append, List.length_singleton,
            show taken - seen.length = taken - (seen.length + 1) + 1 by omega]
          rfl

theorem ReadsPeeked.map {α β : Type} {r : Reader α} {seen : Bytes} {s : Source}
    {found : Except VarInt.Fault (Option (α × Nat))} (h : ReadsPeeked seen s (r s) found)
    (f : α → β) :
    ReadsPeeked seen s ((r >>= fun a => pure (f a)) s)
      (found.map (·.map fun (a, taken) => (f a, taken))) := by
  rcases found with fault | _ | ⟨a, taken⟩
  · obtain ⟨s', hresult⟩ := h
    exact ⟨s', bind_of_error hresult⟩
  · obtain ⟨s', hresult, hp⟩ := h
    exact ⟨s', bind_of_error hresult, hp⟩
  · obtain ⟨s', hresult, hp, hs'⟩ := h
    exact ⟨s', bind_of_ok hresult, hp, hs'⟩

theorem readsPeeked_varInt {s : Source} (hs : s.failing = false) :
    ReadsPeeked [] s (varInt s) (peek s.pending) :=
  (readsPeeked_groups 32 (maxLength 32) [] 0 s hs).map int32OfNat

theorem toInt_ofNat {n : Nat} (hn : n < 2 ^ 31) : (Int32.ofNat n).toInt = n := by
  rw [Int32.toInt_ofNat', Int.bmod_eq_of_le]
  · simp [Int32.size]
  · simp only [Int32.size]
    omega

end Reader

end MinecraftWire
