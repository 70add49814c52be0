import Mathlib.Algebra.BigOperators.Ring.List
import MinecraftWire.Proofs.VarInt

/-! The forms of variable-length integers. A form is a number's groups up to the first byte that
announces no other; it is accepted if it is not too long and its last group keeps to the bits that
are left of the width. Readers accept exactly these forms, among them longer ones than the one that
is written, and what they refuse is refused by the last byte that a form may have. -/

namespace MinecraftWire

namespace VarInt

/-! ### Forms -/

/-- The bytes of one number: each but the last announces another. -/
inductive Delimited : Bytes → Prop
  | last {b : UInt8} (hb : b.toNat < 128) : Delimited [b]
  | more {b : UInt8} {form : Bytes} (hb : 128 ≤ b.toNat) (hform : Delimited form) :
    Delimited (b :: form)

/-- The sum of the groups, the lowest first. -/
def total (form : Bytes) : Nat :=
  (form.mapIdx fun i b => b.toNat % 128 * 2 ^ (7 * i)).sum

/-- A form of at most `most` bytes, in which the group of a byte in the last place is at most `top`.
-/
structure Form (most top : Nat) (form : Bytes) : Prop where
  delimited : Delimited form
  length_le : form.length ≤ most
  top_le : ∀ b, form[most - 1]? = some b → b.toNat % 128 ≤ top

variable {most top n : Nat} {b : UInt8} {form bytes : Bytes}

theorem total_cons (b : UInt8) (form : Bytes) :
    total (b :: form) = b.toNat % 128 + 128 * total form := by
  have hshift : (fun (i : Nat) (b : UInt8) => b.toNat % 128 * 2 ^ (7 * (i + 1))) =
      fun i b => 128 * (b.toNat % 128 * 2 ^ (7 * i)) := by
    funext i b
    rw [Nat.mul_add, Nat.pow_add]
    ring
  rw [total, List.mapIdx_cons, List.sum_cons, hshift, total, List.mapIdx_eq_zipIdx_map,
    List.mapIdx_eq_zipIdx_map, ← List.sum_map_mul_left]
  simp

theorem total_singleton (hb : b.toNat < 128) : total [b] = b.toNat := by
  rw [total_cons, Nat.mod_eq_of_lt hb]
  rfl

theorem total_lt (form : Bytes) : total form < 2 ^ (7 * form.length) := by
  induction form with
  | nil => exact Nat.one_pos
  | cons b form ih =>
    rw [total_cons, List.length_cons, Nat.mul_add, Nat.pow_add]
    omega

theorem Delimited.ne_nil (h : Delimited form) : form ≠ [] := by
  cases h <;> simp

theorem form_cons_iff {left : Nat} :
    Form (left + 1) top (b :: form) ↔
      form = [] ∧ b.toNat < 128 ∧ (left = 0 → b.toNat % 128 ≤ top) ∨
        128 ≤ b.toNat ∧ Form left top form := by
  constructor
  · rintro ⟨hdelimited, hlength, htop⟩
    rw [List.length_cons, Nat.add_le_add_iff_right] at hlength
    cases hdelimited with
    | last hb => exact .inl ⟨rfl, hb, fun hleft => htop b (by simp [hleft])⟩
    | more hb hform =>
      have hpos := List.length_pos_iff.mpr hform.ne_nil
      obtain ⟨k, rfl⟩ : ∃ k, left = k + 1 := ⟨left - 1, by omega⟩
      exact .inr ⟨hb, hform, hlength, htop⟩
  · rintro (⟨rfl, hb, htop⟩ | ⟨hb, hform⟩)
    · refine ⟨.last hb, by simp, fun c hc => ?_⟩
      obtain rfl : left = 0 := by
        by_contra hleft
        simp [hleft] at hc
      obtain rfl : b = c := by simpa using hc
      exact htop rfl
    · have hpos := List.length_pos_iff.mpr hform.delimited.ne_nil
      have hlength := hform.length_le
      obtain ⟨k, rfl⟩ : ∃ k, left = k + 1 := ⟨left - 1, by omega⟩
      exact ⟨.more hb hform.delimited, by simpa using hlength, hform.top_le⟩

/-- Nothing behind a form belongs to it. -/
theorem not_form_zero (form : Bytes) : ¬ Form 0 top form := fun h =>
  h.delimited.ne_nil (List.length_eq_zero_iff.mp (Nat.le_zero.mp h.length_le))

theorem total_lt_of_form {left : Nat} (h : Form (left + 1) top form) :
    total form < (top + 1) * 2 ^ (7 * left) := by
  induction left generalizing form with
  | zero =>
    cases h.delimited with
    | last hb =>
      have := h.top_le _ rfl
      rw [total_singleton hb]
      omega
    | more hb hform => exact absurd (form_cons_iff.mp h) (by simp [not_form_zero, hform.ne_nil])
  | succ left ih =>
    rw [Nat.mul_add, Nat.pow_add, ← Nat.mul_assoc]
    have hone : 0 < (top + 1) * 2 ^ (7 * left) := Nat.mul_pos top.succ_pos (Nat.two_pow_pos _)
    cases h.delimited with
    | last hb =>
      rw [total_singleton hb]
      omega
    | more hb hform =>
      obtain ⟨rfl, -⟩ | ⟨-, htail⟩ := form_cons_iff.mp h
      · exact absurd rfl hform.ne_nil
      · have := ih htail
        rw [total_cons]
        omega

/-- A form is told by its length and the sum of its groups. -/
theorem Delimited.eq_of_total_eq {other : Bytes} (h : Delimited form) (hother : Delimited other)
    (hlength : form.length = other.length) (htotal : total form = total other) : form = other := by
  induction h generalizing other with
  | last hb =>
    cases hother with
    | last hc =>
      rw [total_singleton hb, total_singleton hc] at htotal
      rw [UInt8.toNat_inj.mp htotal]
    | more hc hother => exact absurd hlength (by simp [hother.ne_nil])
  | @more b form hb hform ih =>
    cases hother with
    | last hc => exact absurd hlength (by simp [hform.ne_nil])
    | @more c other hc hother =>
      rw [total_cons, total_cons] at htotal
      have := UInt8.toNat_lt b
      have := UInt8.toNat_lt c
      obtain rfl : b = c := UInt8.toNat_inj.mp (by omega)
      rw [ih hother (Nat.succ.inj hlength) (by omega)]

/-! ### Written forms -/

theorem total_ofNat (n : Nat) : total (ofNat n) = n := by
  fun_induction ofNat n with
  | case1 n hn =>
    have hb := toNat_last hn
    rw [total_singleton (by omega), hb]
  | case2 n hn ih =>
    rw [total_cons, ih, toNat_more]
    omega

theorem length_ofNat_le_iff {k : Nat} (hk : 0 < k) : (ofNat n).length ≤ k ↔ n < 2 ^ (7 * k) := by
  induction k, hk using Nat.le_induction generalizing n with
  | base =>
    rw [ofNat]
    split
    · simpa
    · have := List.length_pos_iff.mpr (ofNat_ne_nil (n / 128))
      simp only [List.length_cons, Nat.succ_eq_add_one, Nat.zero_add, Nat.mul_one]
      omega
  | succ k hk ih =>
    rw [ofNat, Nat.mul_add, Nat.pow_add]
    split
    · have := Nat.two_pow_pos (7 * k)
      simp only [List.length_singleton]
      omega
    · rw [List.length_cons, Nat.add_le_add_iff_right, ih, Nat.div_lt_iff_lt_mul (by decide)]

theorem natLength_le_iff {k : Nat} (hk : 0 < k) : natLength n ≤ k ↔ n < 2 ^ (7 * k) := by
  unfold natLength
  split
  · rename_i hn
    have := Nat.two_pow_pos (7 * k)
    omega
  · rename_i hn
    rw [← Nat.log2_lt hn]
    omega

theorem natLength_pos (n : Nat) : 0 < natLength n := by
  unfold natLength
  split <;> omega

theorem form_ofNat {left : Nat} (htop : top < 128) (hn : n < (top + 1) * 2 ^ (7 * left)) :
    Form (left + 1) top (ofNat n) := by
  induction left generalizing n with
  | zero =>
    have hlow : n < 128 := by omega
    rw [ofNat, if_pos hlow, form_cons_iff, toNat_last hlow]
    exact .inl ⟨rfl, hlow, fun _ => by omega⟩
  | succ left ih =>
    rw [ofNat]
    split
    · rename_i hlow
      rw [form_cons_iff, toNat_last hlow]
      exact .inl ⟨rfl, hlow, fun hleft => absurd hleft (by simp)⟩
    · rename_i hhigh
      rw [Nat.mul_add, Nat.pow_add, ← Nat.mul_assoc] at hn
      have hrest : n / 128 < (top + 1) * 2 ^ (7 * left) := by
        rw [Nat.div_lt_iff_lt_mul (by decide)]
        exact hn
      rw [form_cons_iff, toNat_more]
      exact .inr ⟨Nat.le_add_left _ _, ih hrest⟩

/-- The number of groups told from the bits of a number is the number of those written. -/
theorem length_ofNat (n : Nat) : (ofNat n).length = natLength n := by
  have hpos := List.length_pos_iff.mpr (ofNat_ne_nil n)
  apply Nat.le_antisymm
  · rw [length_ofNat_le_iff (natLength_pos n), ← natLength_le_iff (natLength_pos n)]
  · rw [natLength_le_iff hpos, ← length_ofNat_le_iff hpos]

/-- No form of a number is shorter than the one that is written. -/
theorem natLength_total_le (h : Delimited form) : natLength (total form) ≤ form.length :=
  (natLength_le_iff (List.length_pos_iff.mpr h.ne_nil)).mpr (total_lt form)

/-! ### Widths -/

/-- A number of bits, with the greatest number of groups and the greatest last group among so many.
-/
structure Width where
  bits : Nat
  most : Nat
  top : Nat
  most_lt : 7 * most < bits + 7
  lt_most : bits < 7 * most
  top_add_one : top + 1 = 2 ^ (bits - 7 * (most - 1))

namespace Width

def int32 : Width := ⟨32, 5, 0x0F, by decide, by decide, by decide⟩

def int64 : Width := ⟨64, 10, 0x01, by decide, by decide, by decide⟩

variable {w : Width} {left seen value : Nat}

theorem maxLength_bits (w : Width) : maxLength w.bits = w.most := by
  have := w.most_lt
  have := w.lt_most
  unfold maxLength
  omega

theorem pow_bits (w : Width) : (w.top + 1) * 2 ^ (7 * (w.most - 1)) = 2 ^ w.bits := by
  have := w.most_lt
  rw [w.top_add_one, ← Nat.pow_add, Nat.sub_add_cancel (by omega)]

theorem most_pos (w : Width) : 0 < w.most := by
  have := w.lt_most
  omega

theorem top_lt (w : Width) : w.top < 128 := by
  have := w.lt_most
  have hbits : w.bits - 7 * (w.most - 1) ≤ 7 := by omega
  have hpow := Nat.pow_le_pow_right (n := 2) (by decide) hbits
  have := w.top_add_one
  omega

/-- The groups of a form hold a number of the width. -/
theorem total_lt (h : Form w.most w.top form) : total form < 2 ^ w.bits := by
  rw [← w.pow_bits]
  apply total_lt_of_form
  rwa [Nat.sub_add_cancel w.most_pos]

/-- Every number of the width is written in a form. -/
theorem form_ofNat (hn : n < 2 ^ w.bits) : Form w.most w.top (ofNat n) := by
  rw [← Nat.sub_add_cancel w.most_pos]
  exact VarInt.form_ofNat w.top_lt (by rwa [w.pow_bits])

/-- Only in the last place a group can be too great. -/
theorem accept_eq (h : seen + left + 1 = w.most) (value : Nat) (b : UInt8) :
    accept w.bits seen value b =
      if left = 0 ∧ w.top < b.toNat % 128 then .error (.overflow w.bits (b.toNat % 128))
      else if b.toNat < 128 then .ok (.done (value + (b.toNat % 128) <<< (7 * seen)))
      else .ok (.more (value + (b.toNat % 128) <<< (7 * seen))) := by
  have hleft : w.bits < 7 * seen + 7 ↔ left = 0 := by
    have := w.most_lt
    have := w.lt_most
    omega
  have htop : left = 0 → ((b.toNat % 128) >>> (w.bits - 7 * seen) ≠ 0 ↔ w.top < b.toNat % 128) := by
    intro hzero
    have hpow := w.top_add_one
    rw [show w.most - 1 = seen by omega] at hpow
    rw [Nat.shiftRight_eq_div_pow, ← hpow, Nat.div_ne_zero_iff]
    omega
  have hrefused : w.bits < 7 * seen + 7 ∧ (b.toNat % 128) >>> (w.bits - 7 * seen) ≠ 0 ↔
      left = 0 ∧ w.top < b.toNat % 128 := by
    rw [hleft]
    exact and_congr_right htop
  simp only [accept, hrefused]

/-! ### Peeking -/

variable {taken : Nat}

theorem peekFrom_of_form (h : seen + left = w.most) (hform : Form left w.top form) (rest : Bytes) :
    peekFrom w.bits left seen value (form ++ rest) =
      .ok (some (value + total form <<< (7 * seen), seen + form.length)) := by
  induction left generalizing seen value form with
  | zero => exact absurd hform (not_form_zero form)
  | succ left ih =>
    obtain ⟨b, form, rfl⟩ := List.exists_cons_of_ne_nil hform.delimited.ne_nil
    rw [List.cons_append, peekFrom, accept_eq (by omega)]
    rcases form_cons_iff.mp hform with ⟨rfl, hb, htop⟩ | ⟨hb, htail⟩
    · rw [if_neg fun hgreat => Nat.not_lt.mpr (htop hgreat.1) hgreat.2, if_pos hb,
        total_singleton hb, Nat.mod_eq_of_lt hb]
      rfl
    · have hleft : left ≠ 0 := by
        rintro rfl
        exact not_form_zero form htail
      rw [if_neg fun hgreat => hleft hgreat.1, if_neg (by omega)]
      dsimp only
      rw [ih (by omega) htail, total_cons]
      simp only [Nat.shiftLeft_eq, Nat.mul_add, Nat.pow_add, List.length_cons, Except.ok.injEq,
        Option.some.injEq, Prod.mk.injEq]
      exact ⟨by ring, by omega⟩

/-- What is found at the front of a byte string is a form. -/
theorem exists_form_of_peekFrom (h : seen + left = w.most)
    (hpeek : peekFrom w.bits left seen value bytes = .ok (some (n, taken))) :
    ∃ form rest, bytes = form ++ rest ∧ Form left w.top form := by
  induction left generalizing seen value bytes with
  | zero => simp [peekFrom] at hpeek
  | succ left ih =>
    cases bytes with
    | nil => simp [peekFrom] at hpeek
    | cons b bytes =>
      rw [peekFrom, accept_eq (by omega)] at hpeek
      split_ifs at hpeek with hgreat hb
      · exact ⟨[b], bytes, rfl, form_cons_iff.mpr (.inl ⟨rfl, hb, fun hleft => by omega⟩)⟩
      · obtain ⟨form, rest, rfl, htail⟩ := ih (by omega) hpeek
        exact ⟨b :: form, rest, rfl, form_cons_iff.mpr (.inr ⟨by omega, htail⟩)⟩

/-- A refusal takes as many bytes as a form may have, and no more. -/
theorem peekFrom_eq_error {fault : Fault} (h : seen + left = w.most)
    (hpeek : peekFrom w.bits left seen value bytes = .error fault) :
    left ≤ bytes.length ∧
      peekFrom w.bits left seen value (bytes.take left) = .error fault := by
  induction left generalizing seen value bytes with
  | zero => exact ⟨Nat.zero_le _, hpeek⟩
  | succ left ih =>
    cases bytes with
    | nil => simp [peekFrom] at hpeek
    | cons b bytes =>
      rw [List.take_succ_cons]
      rw [peekFrom, accept_eq (by omega)] at hpeek ⊢
      split_ifs at hpeek ⊢ with hgreat hb
      · exact ⟨by simp [hgreat.1], hpeek⟩
      · obtain ⟨hlength, htake⟩ := ih (by omega) hpeek
        exact ⟨Nat.succ_le_succ hlength, htake⟩

/-- The bytes end inside a form. -/
def Unfinished (w : Width) (bytes : Bytes) : Prop :=
  bytes.length < w.most ∧ ∀ b ∈ bytes, 128 ≤ b.toNat

/-- What stands at the front of a byte string: a form, the beginning of one, or neither. -/
theorem peekFrom_cases (w : Width) (bytes : Bytes) :
    (∃ form rest, bytes = form ++ rest ∧ Form w.most w.top form ∧
      peekFrom w.bits w.most 0 0 bytes = .ok (some (total form, form.length))) ∨
    (w.Unfinished bytes ∧ peekFrom w.bits w.most 0 0 bytes = .ok none) ∨
    ∃ fault, peekFrom w.bits w.most 0 0 bytes = .error fault ∧ w.most ≤ bytes.length ∧
      peekFrom w.bits w.most 0 0 (bytes.take w.most) = .error fault := by
  have hmost : 0 + w.most = w.most := Nat.zero_add _
  rcases hpeek : peekFrom w.bits w.most 0 0 bytes with fault | _ | ⟨n, taken⟩
  · exact .inr (.inr ⟨fault, rfl, peekFrom_eq_error hmost hpeek⟩)
  · have hbits : 7 * (0 + w.most) < w.bits + 7 := by rw [hmost]; exact w.most_lt
    exact .inr (.inl ⟨(peekFrom_eq_none_iff hbits).mp hpeek, rfl⟩)
  · obtain ⟨form, rest, rfl, hform⟩ := exists_form_of_peekFrom hmost hpeek
    refine .inl ⟨form, rest, rfl, hform, ?_⟩
    rw [← hpeek, peekFrom_of_form hmost hform]
    simp

end Width

end VarInt

/-! ### Reading from a channel -/

namespace Reader

open VarInt

/-- A refused number has been read up to the last byte that a form may have. -/
theorem pending_of_groups_error {w : Width} {left value : Nat} {seen : Bytes} {s s' : Source}
    {cause : Malformation} (hs : s.failing = false) (h : seen.length + left = w.most)
    (hread : groups w.bits left seen value s = (.error (.format cause), s')) :
    s'.pending = s.pending.drop left := by
  induction left generalizing seen value s with
  | zero =>
    obtain ⟨-, rfl⟩ := Prod.mk.inj hread
    rfl
  | succ left ih =>
    rcases hp : s.pending with _ | ⟨b, rest⟩
    · obtain ⟨s₁, hr, -⟩ := Source.readFull_of_lt (n := 1) (s := s) (by simp [hp]) hs
      simp [groups, hr] at hread
    · obtain ⟨s₁, hr, hp₁, hs₁⟩ := Source.readFull_of_le (n := 1) (s := s) (by simp [hp])
      rw [hp] at hr hp₁
      have hplace : seen.length + left + 1 = w.most := by omega
      have ha := Width.accept_eq hplace value b
      split_ifs at ha with hgreat hb
      · rw [hgreat.1]
        simp only [groups, hr, List.take_succ_cons, List.take_zero, List.headD_cons, ha] at hread
        obtain ⟨-, rfl⟩ := Prod.mk.inj hread
        exact hp₁
      · rw [groups_done hr ha] at hread
        simp at hread
      · rw [groups_more hr ha] at hread
        rw [ih (by rw [hs₁, hs]) (by simp; omega) hread, hp₁]
        rfl

end Reader

namespace VarInt

/-! ### Kinds of integers -/

/-- A kind of integers: their width, their values as they are and without a sign, and how they are
written and read. -/
structure Kind (α : Type) extends Width where
  toInt : α → Int
  toNat : α → Nat
  ofNat : Nat → α
  encode : α → Bytes
  length : α → Nat
  reader : Reader α
  toNat_lt : ∀ a, toNat a < 2 ^ bits
  ofNat_toNat : ∀ a, ofNat (toNat a) = a
  toNat_ofNat : ∀ n, n < 2 ^ bits → toNat (ofNat n) = n
  toInt_ofNat : ∀ n, toInt (ofNat n) = (n : Int).bmod (2 ^ bits)
  toInt_inj : ∀ a b, toInt a = toInt b → a = b
  encode_eq : ∀ a, encode a = VarInt.ofNat (toNat a)
  length_eq : ∀ a, length a = natLength (toNat a)
  reader_eq : reader = Reader.groups bits (maxLength bits) [] 0 >>= fun n => pure (ofNat n)

namespace Kind

def int32 : Kind Int32 where
  toWidth := .int32
  toInt := Int32.toInt
  toNat v := v.toUInt32.toNat
  ofNat := int32OfNat
  encode := VarInt.encode
  length := VarInt.length
  reader := Reader.varInt
  toNat_lt v := v.toUInt32.toNat_lt
  ofNat_toNat v := by simp [int32OfNat]
  toNat_ofNat n hn := by
    rw [int32OfNat, UInt32.toUInt32_toInt32, UInt32.toNat_ofNat']
    exact Nat.mod_eq_of_lt hn
  toInt_ofNat n := by
    rw [int32OfNat, UInt32.toInt32_ofNat', Int32.toInt_ofNat']
    rfl
  toInt_inj _ _ := Int32.toInt_inj.mp
  encode_eq _ := rfl
  length_eq _ := rfl
  reader_eq := rfl

def int64 : Kind Int64 where
  toWidth := .int64
  toInt := Int64.toInt
  toNat v := v.toUInt64.toNat
  ofNat := int64OfNat
  encode := VarLong.encode
  length := VarLong.length
  reader := Reader.varLong
  toNat_lt v := v.toUInt64.toNat_lt
  ofNat_toNat v := by simp [int64OfNat]
  toNat_ofNat n hn := by
    rw [int64OfNat, UInt64.toUInt64_toInt64, UInt64.toNat_ofNat']
    exact Nat.mod_eq_of_lt hn
  toInt_ofNat n := by
    rw [int64OfNat, UInt64.toInt64_ofNat', Int64.toInt_ofNat']
    rfl
  toInt_inj _ _ := Int64.toInt_inj.mp
  encode_eq _ := rfl
  length_eq _ := rfl
  reader_eq := rfl

variable {α : Type} {k : Kind α} {a : α} {form rest : Bytes} {s : Source}

/-- An accepted form, whose groups give `a` in two's complement. -/
def IsForm (k : Kind α) (form : Bytes) (a : α) : Prop :=
  Form k.most k.top form ∧ k.toInt a = (total form : Int).bmod (2 ^ k.bits)

theorem isForm_iff : k.IsForm form a ↔ Form k.most k.top form ∧ a = k.ofNat (total form) := by
  rw [IsForm, ← k.toInt_ofNat]
  exact and_congr_right fun _ => ⟨k.toInt_inj _ _, congrArg k.toInt⟩

theorem isForm_encode (k : Kind α) (a : α) : k.IsForm (k.encode a) a := by
  rw [isForm_iff, k.encode_eq, total_ofNat, k.ofNat_toNat]
  exact ⟨Width.form_ofNat (k.toNat_lt a), rfl⟩

theorem IsForm.total_eq (h : k.IsForm form a) : total form = k.toNat a := by
  obtain ⟨hform, rfl⟩ := isForm_iff.mp h
  rw [k.toNat_ofNat _ (Width.total_lt hform)]

theorem length_encode (k : Kind α) (a : α) : (k.encode a).length = k.length a := by
  rw [k.encode_eq, k.length_eq, length_ofNat]

/-- What reading makes of a channel is what peeking finds on it. -/
theorem readsPeeked (k : Kind α) (hs : s.failing = false) :
    Reader.ReadsPeeked [] s (k.reader s) ((peekFrom k.bits k.most 0 0 s.pending).map
      (·.map fun (n, taken) => (k.ofNat n, taken))) := by
  have hgroups := Reader.readsPeeked_groups k.bits (maxLength k.bits) [] 0 s hs
  have hread := hgroups.map k.ofNat
  rwa [← k.reader_eq, k.maxLength_bits] at hread

theorem takes (h : k.IsForm form a) (rest : Bytes) : k.reader.Takes form rest a := by
  intro s hs hp
  obtain ⟨hform, rfl⟩ := isForm_iff.mp h
  have hread := k.readsPeeked hs
  rw [hp, Width.peekFrom_of_form (Nat.zero_add _) hform rest] at hread
  obtain ⟨s', hresult, hp', hs'⟩ := hread
  refine ⟨s', ?_, ?_, hs'⟩
  · rw [hresult]
    simp
  · rw [hp', hp]
    simp

/-- How an integer is written: in as many bytes as its length tells, the fewest that an accepted
form of it has. Reading gives it back and leaves what follows. -/
structure Written (k : Kind α) (a : α) : Prop where
  length_encode : (k.encode a).length = k.length a
  length_pos : 1 ≤ k.length a
  length_le : k.length a ≤ k.most
  delimited : Delimited (k.encode a)
  takes : ∀ rest, k.reader.Takes (k.encode a) rest a
  shortest : ∀ form, k.IsForm form a → k.length a ≤ form.length

theorem written (k : Kind α) (a : α) : k.Written a where
  length_encode := k.length_encode a
  length_pos := by
    rw [k.length_eq]
    exact natLength_pos _
  length_le := by
    rw [← k.length_encode]
    exact (k.isForm_encode a).1.length_le
  delimited := (k.isForm_encode a).1.delimited
  takes := takes (k.isForm_encode a)
  shortest form h := by
    rw [k.length_eq, ← h.total_eq]
    exact natLength_total_le h.1.delimited

/-- How a channel is read: an integer comes out exactly where an accepted form of it stands at the
front. A channel that ends inside a form is read to its end, and all its bytes are told. Anything
else is malformed, which shows by the last byte that a form may have. -/
structure ReadFrom (k : Kind α) (s : Source) : Prop where
  ok_iff : ∀ a rest, (∃ s', k.reader s = (.ok a, s') ∧ s'.pending = rest) ↔
    ∃ form, s.pending = form ++ rest ∧ k.IsForm form a
  unfinished : k.Unfinished s.pending → ∃ s',
    k.reader s = (.error (.unexpectedEnd (s.pending.length + 1) s.pending), s') ∧ s'.pending = []
  refused : ¬ k.Unfinished s.pending →
    (∀ form rest, s.pending = form ++ rest → ¬ Form k.most k.top form) →
    k.most ≤ s.pending.length ∧ ∃ cause s',
      k.reader s = (.error (.format (.varInt cause)), s') ∧ s'.pending = s.pending.drop k.most

theorem readFrom (k : Kind α) (hs : s.failing = false) : k.ReadFrom s where
  ok_iff a rest := by
    constructor
    · rintro ⟨s', hread, hrest⟩
      have hpeeked := k.readsPeeked hs
      rcases k.peekFrom_cases s.pending with
        ⟨form, behind, hp, hform, hfound⟩ | ⟨-, hfound⟩ | ⟨fault, hfound, -⟩ <;>
        rw [hfound] at hpeeked
      · obtain ⟨s₁, hresult, hp₁, -⟩ := hpeeked
        rw [hread] at hresult
        obtain ⟨ha, rfl⟩ := Prod.mk.inj hresult
        refine ⟨form, ?_, isForm_iff.mpr ⟨hform, Except.ok.inj ha⟩⟩
        rw [hp, ← hrest, hp₁, hp]
        simp
      · obtain ⟨s₁, hresult, -⟩ := hpeeked
        rw [hread] at hresult
        simp at hresult
      · obtain ⟨s₁, hresult⟩ := hpeeked
        rw [hread] at hresult
        simp at hresult
    · rintro ⟨form, hp, hform⟩
      obtain ⟨s', hread, hp', -⟩ := takes hform rest s hs hp
      exact ⟨s', hread, hp'⟩
  unfinished h := by
    have hpeeked := k.readsPeeked hs
    have hbits : 7 * (0 + k.most) < k.bits + 7 := by rw [Nat.zero_add]; exact k.most_lt
    rw [(peekFrom_eq_none_iff hbits).mpr h] at hpeeked
    obtain ⟨s', hresult, hp⟩ := hpeeked
    refine ⟨s', ?_, hp⟩
    rw [hresult]
    simp
  refused hfinished hforms := by
    have hpeeked := k.readsPeeked hs
    rcases k.peekFrom_cases s.pending with
      ⟨form, behind, hp, hform, -⟩ | ⟨hunfinished, -⟩ | ⟨fault, hfound, hlength, -⟩
    · exact absurd hform (hforms form behind hp)
    · exact absurd hunfinished hfinished
    rw [hfound] at hpeeked
    obtain ⟨s', hresult⟩ := hpeeked
    refine ⟨hlength, fault, s', hresult, ?_⟩
    rw [k.reader_eq] at hresult
    rw [← k.maxLength_bits]
    exact Reader.pending_of_groups_error hs (by simp [k.maxLength_bits])
      (Reader.of_map_error hresult)

/-- An accepted form that is not the written one is longer. -/
theorem eq_encode_or_length_lt (h : k.IsForm form a) :
    form = k.encode a ∨ (k.encode a).length < form.length := by
  have hshortest := (k.written a).shortest form h
  rw [← k.length_encode] at hshortest
  rcases Nat.eq_or_lt_of_le hshortest with hlength | hlength
  · have hencode := k.isForm_encode a
    refine .inl (h.1.delimited.eq_of_total_eq hencode.1.delimited hlength.symm ?_)
    rw [h.total_eq, hencode.total_eq]
  · exact .inr hlength

end Kind

/-! ### Peeking -/

/-- How a byte string is peeked at: it is read in the same way, but nothing is taken, and where it
ends inside a form this is no fault. -/
structure Peeked (bytes : Bytes) : Prop where
  some_iff : ∀ v taken, peek bytes = .ok (some (v, taken)) ↔
    ∃ form rest, bytes = form ++ rest ∧ Kind.int32.IsForm form v ∧ taken = form.length
  none_iff : peek bytes = .ok none ↔ Width.int32.Unfinished bytes
  refused : ¬ Width.int32.Unfinished bytes →
    (∀ form rest, bytes = form ++ rest → ¬ Form 5 0x0F form) →
    5 ≤ bytes.length ∧ ∃ fault, peek bytes = .error fault ∧ peek (bytes.take 5) = .error fault

theorem peek_eq (bytes : Bytes) :
    peek bytes = (peekFrom Kind.int32.bits Kind.int32.most 0 0 bytes).map
      (·.map fun (n, taken) => (Kind.int32.ofNat n, taken)) := rfl

theorem peek_of_isForm {v : Int32} (h : Kind.int32.IsForm form v) (rest : Bytes) :
    peek (form ++ rest) = .ok (some (v, form.length)) := by
  obtain ⟨hform, rfl⟩ := Kind.isForm_iff.mp h
  rw [peek_eq, Width.peekFrom_of_form (Nat.zero_add _) hform]
  simp [Except.map]

theorem peeked (bytes : Bytes) : Peeked bytes where
  some_iff v taken := by
    constructor
    · intro hpeek
      rcases Kind.int32.peekFrom_cases bytes with
        ⟨form, rest, rfl, hform, -⟩ | ⟨-, hfound⟩ | ⟨fault, hfound, -⟩
      · rw [peek_of_isForm (Kind.isForm_iff.mpr ⟨hform, rfl⟩)] at hpeek
        obtain ⟨rfl, rfl⟩ := Prod.mk.inj (Option.some.inj (Except.ok.inj hpeek))
        exact ⟨form, rest, rfl, Kind.isForm_iff.mpr ⟨hform, rfl⟩, rfl⟩
      · simp [peek_eq, hfound, Except.map] at hpeek
      · simp [peek_eq, hfound, Except.map] at hpeek
    · rintro ⟨form, rest, rfl, hform, rfl⟩
      exact peek_of_isForm hform rest
  none_iff := peek_eq_none_iff
  refused hfinished hforms := by
    rcases Kind.int32.peekFrom_cases bytes with
      ⟨form, rest, hp, hform, -⟩ | ⟨hunfinished, -⟩ | ⟨fault, hfound, hlength, htake⟩
    · exact absurd hform (hforms form rest hp)
    · exact absurd hunfinished hfinished
    · refine ⟨hlength, fault, by rw [peek_eq, hfound]; rfl, ?_⟩
      change peek (bytes.take Kind.int32.most) = _
      rw [peek_eq, htake]
      rfl

/-! ### Lengths -/

/-- An accepted form of a length. -/
def Announces (form : Bytes) (n : Int) : Prop :=
  ∃ v, Kind.int32.IsForm form v ∧ v.toInt = n

/-- A length below the sign bit is announced by the form in which it is written. -/
theorem announces_ofLength (hn : n < 2 ^ 31) : Announces (ofLength n) n :=
  ⟨Int32.ofNat n, Kind.int32.isForm_encode _, Reader.toInt_ofNat hn⟩

theorem Announces.ne_nil {n : Int} (h : Announces form n) : form ≠ [] := by
  obtain ⟨v, hform, -⟩ := h
  exact hform.1.delimited.ne_nil

/-- One byte string begins with one form. -/
theorem Announces.append_inj {form' rest rest' : Bytes} {n n' : Int} (h : Announces form n)
    (h' : Announces form' n') (heq : form ++ rest = form' ++ rest') :
    form = form' ∧ n = n' ∧ rest = rest' := by
  obtain ⟨v, hv, rfl⟩ := h
  obtain ⟨v', hv', rfl⟩ := h'
  have hpeek := peek_of_isForm hv rest
  rw [heq, peek_of_isForm hv' rest'] at hpeek
  obtain ⟨rfl, hlength⟩ := Prod.mk.inj (Option.some.inj (Except.ok.inj hpeek))
  obtain ⟨rfl, rfl⟩ := List.append_inj heq hlength.symm
  exact ⟨rfl, rfl, rfl⟩

/-- The accepted form of a length that is shorter than all others. -/
structure Shortest (form : Bytes) (n : Int) : Prop where
  announces : Announces form n
  shortest : ∀ other, Announces other n → other = form ∨ form.length < other.length

theorem shortest_ofLength (hn : n < 2 ^ 31) : Shortest (ofLength n) n where
  announces := announces_ofLength hn
  shortest other h := by
    obtain ⟨v, hv, hint⟩ := h
    obtain rfl : v = Int32.ofNat n := by
      rw [← Int32.toInt_inj, hint, Reader.toInt_ofNat hn]
    exact Kind.eq_encode_or_length_lt hv

/-! ### Writing, reading and peeking -/

/-- Integers of 32 and of 64 bits are written in the fewest groups, at most 5 and 10, and read back.
Readers take exactly the accepted forms: at most 5 groups, the fifth at most 0x0F, and at most 10,
the tenth at most 0x01. Peeking finds what reading reads. -/
theorem written_and_read_exactly (v : Int32) (w : Int64) {s : Source} (hs : s.failing = false) :
    Kind.int32.Written v ∧ Kind.int64.Written w ∧ Kind.int32.ReadFrom s ∧ Kind.int64.ReadFrom s ∧
      Peeked s.pending ∧ Reader.ReadsPeeked [] s (Reader.varInt s) (peek s.pending) :=
  ⟨Kind.int32.written v, Kind.int64.written w, Kind.int32.readFrom hs, Kind.int64.readFrom hs,
    peeked s.pending, Reader.readsPeeked_varInt hs⟩

/-- A form of one that has two groups more than it needs, on a channel that gives out single bytes.
-/
theorem written_and_read_exactly_long_form :
    let s := Source.chunked 1 false [0x81, 0x80, 0x00, 7]
    s.failing = false ∧ Kind.int32.Written 1 ∧ Kind.int64.Written 1 ∧
      (∃ s', Reader.varInt s = (.ok 1, s') ∧ s'.pending = [7]) ∧
      (∃ s', Reader.varLong s = (.ok 1, s') ∧ s'.pending = [7]) ∧
      peek s.pending = .ok (some (1, 3)) := by
  intro s
  have hs : s.failing = false := rfl
  obtain ⟨hv, hw, hread, hread', hpeeked, -⟩ := written_and_read_exactly 1 1 hs
  have hdelimited : Delimited [0x81, 0x80, 0x00] :=
    .more (by decide) (.more (by decide) (.last (by decide)))
  have hint : Kind.int32.IsForm [0x81, 0x80, 0x00] 1 :=
    ⟨⟨hdelimited, by decide, fun b hb => nomatch hb⟩, by decide⟩
  have hlong : Kind.int64.IsForm [0x81, 0x80, 0x00] 1 :=
    ⟨⟨hdelimited, by decide, fun b hb => nomatch hb⟩, by decide⟩
  exact ⟨hs, hv, hw, (hread.ok_iff 1 [7]).mpr ⟨_, rfl, hint⟩,
    (hread'.ok_iff 1 [7]).mpr ⟨_, rfl, hlong⟩, (hpeeked.some_iff 1 3).mpr ⟨_, [7], rfl, hint, rfl⟩⟩

end VarInt

end MinecraftWire
