import Mathlib.Order.Monotone.Basic
import Mathlib.Tactic.Ring
import MinecraftWire.Number.Binary

/-! Values that both formats have. A magnitude is a significand and an exponent, and rounding gives
back each value that has such a form. The values of the shorter format have one in the longer format
too, so widening is exact, keeps the order, and is undone by narrowing. -/

namespace MinecraftWire

namespace BinaryFormat

variable {f : BinaryFormat} {m e : Nat}

/-- A significand and an exponent that are together a magnitude: the significand is full, but for
the least exponent. -/
structure Normalized (f : BinaryFormat) (m e : Nat) : Prop where
  lt : m < 2 ^ f.precision
  full : e = 0 ∨ 2 ^ (f.precision - 1) ≤ m

/-- The bits of a magnitude. The exponent counts on from the leading bit of the significand. -/
def pack (f : BinaryFormat) (m e : Nat) : Nat :=
  e * 2 ^ (f.precision - 1) + m

section Values

variable (hf : 0 < f.precision)

include hf

theorem two_pow_precision : 2 ^ f.precision = 2 * 2 ^ (f.precision - 1) := by
  rw [← Nat.pow_succ', Nat.succ_eq_add_one, Nat.sub_add_cancel hf]

theorem exists_pack (bits : Nat) : ∃ m e, f.Normalized m e ∧ bits = f.pack m e := by
  have hpow := two_pow_precision hf
  have hpos : 0 < 2 ^ (f.precision - 1) := Nat.two_pow_pos _
  rcases Nat.lt_or_ge bits (2 ^ (f.precision - 1)) with hlt | hge
  · exact ⟨bits, 0, ⟨by omega, .inl rfl⟩, by simp [pack]⟩
  · have hmod := Nat.mod_lt bits hpos
    have hquotient : 1 ≤ bits / 2 ^ (f.precision - 1) := (Nat.one_le_div_iff hpos).mpr hge
    refine ⟨2 ^ (f.precision - 1) + bits % 2 ^ (f.precision - 1),
      bits / 2 ^ (f.precision - 1) - 1, ⟨by omega, .inr (Nat.le_add_right _ _)⟩, ?_⟩
    rw [pack, ← Nat.add_assoc, ← Nat.succ_mul, Nat.succ_eq_add_one, Nat.sub_add_cancel hquotient,
      Nat.mul_comm, Nat.div_add_mod]

theorem steps_pack (h : f.Normalized m e) : f.steps (f.pack m e) = m * 2 ^ e := by
  have hpow := two_pow_precision hf
  have hlt := h.lt
  have hpos : 0 < 2 ^ (f.precision - 1) := Nat.two_pow_pos _
  rcases Nat.lt_or_ge m (2 ^ (f.precision - 1)) with hshort | hfull
  · obtain rfl := h.full.resolve_right (Nat.not_le.mpr hshort)
    simp [steps, pack, hshort]
  · obtain ⟨rest, rfl⟩ := Nat.exists_eq_add_of_le hfull
    have hrest : rest < 2 ^ (f.precision - 1) := by omega
    have hbits : f.pack (2 ^ (f.precision - 1) + rest) e =
        rest + 2 ^ (f.precision - 1) * (e + 1) := by
      rw [pack]
      ring
    rw [hbits, steps, if_neg (by rw [Nat.mul_succ]; omega), Nat.add_mul_mod_self_left,
      Nat.mod_eq_of_lt hrest, Nat.add_mul_div_left _ _ hpos, Nat.div_eq_of_lt hrest, Nat.zero_add,
      Nat.add_sub_cancel, Nat.shiftLeft_eq]

theorem excess_eq (h : f.Normalized m e) : (m * 2 ^ e).log2 + 1 - f.precision = e := by
  rcases h.full with rfl | hfull
  · rw [Nat.pow_zero, Nat.mul_one]
    rcases Nat.eq_zero_or_pos m with rfl | hm
    · simp
      omega
    · have := (Nat.log2_lt (Nat.ne_of_gt hm)).mpr h.lt
      omega
  · have hpos : 0 < 2 ^ (f.precision - 1) := Nat.two_pow_pos _
    have hm : m * 2 ^ e ≠ 0 := Nat.ne_of_gt (Nat.mul_pos (by omega) (Nat.two_pow_pos _))
    have hlog : (m * 2 ^ e).log2 = f.precision - 1 + e := by
      rw [Nat.log2_eq_iff hm]
      constructor
      · rw [Nat.pow_add]
        exact Nat.mul_le_mul_right _ hfull
      · rw [show f.precision - 1 + e + 1 = f.precision + e by omega, Nat.pow_add]
        exact Nat.mul_lt_mul_of_pos_right h.lt (Nat.two_pow_pos _)
    omega

/-- A quotient that is a value of the format is not changed by rounding. -/
theorem round_eq_pack (h : f.Normalized m e) {numerator denominator : Nat} (hd : 0 < denominator)
    (hvalue : numerator * 2 ^ f.scale = m * 2 ^ e * denominator) :
    f.round numerator denominator = min f.infinity (f.pack m e) := by
  have hunit : 0 < denominator * 2 ^ e := Nat.mul_pos hd (Nat.two_pow_pos _)
  have hwhole : m * 2 ^ e * denominator = m * (denominator * 2 ^ e) := by ring
  simp only [round, Nat.shiftLeft_eq, hvalue, Nat.mul_div_cancel _ hd, excess_eq hf h]
  rw [hwhole, Nat.mul_div_cancel _ hunit, Nat.mul_mod_left, if_neg (by omega)]
  rfl

/-- Greater magnitudes have greater values. -/
theorem steps_strictMono : StrictMono f.steps := by
  have hpos : 0 < 2 ^ (f.precision - 1) := Nat.two_pow_pos _
  have hpow := two_pow_precision hf
  refine strictMono_nat_of_lt_succ fun bits => ?_
  obtain ⟨m, e, h, rfl⟩ := exists_pack hf bits
  rw [steps_pack hf h]
  have hlt := h.lt
  rcases Nat.lt_or_ge (m + 1) (2 ^ f.precision) with hroom | hlast
  · have hnext : f.Normalized (m + 1) e := ⟨hroom, h.full.imp_right Nat.le_succ_of_le⟩
    rw [show f.pack m e + 1 = f.pack (m + 1) e from rfl, steps_pack hf hnext]
    exact Nat.mul_lt_mul_of_pos_right (Nat.lt_succ_self m) (Nat.two_pow_pos _)
  · -- the significand is at its greatest, so the exponent grows
    have hnext : f.Normalized (2 ^ (f.precision - 1)) (e + 1) := ⟨by omega, .inr (Nat.le_refl _)⟩
    have hbits : f.pack m e + 1 = f.pack (2 ^ (f.precision - 1)) (e + 1) := by
      rw [pack, pack, Nat.succ_mul]
      omega
    rw [hbits, steps_pack hf hnext, Nat.pow_succ', ← Nat.mul_assoc]
    exact Nat.mul_lt_mul_of_pos_right (by omega) (Nat.two_pow_pos _)

end Values

end BinaryFormat

open BinaryFormat

/-! ### Bits -/

theorem Float32Bits.ofMagnitude_magnitude (v : Float32Bits) :
    ofMagnitude v.isNegative v.magnitude = v := by
  obtain ⟨bits⟩ := v
  have hbits := bits.toNat_lt
  simp only [ofMagnitude, isNegative, magnitude, mk.injEq, decide_eq_true_eq]
  rw [← UInt32.toNat_inj, UInt32.toNat_ofNat']
  split <;> omega

theorem Float64Bits.magnitude_ofMagnitude {negative : Bool} {magnitude : Nat}
    (h : magnitude < 2 ^ 63) : (ofMagnitude negative magnitude).magnitude = magnitude := by
  simp only [ofMagnitude, Float64Bits.magnitude, UInt64.toNat_ofNat']
  split <;> omega

theorem Float64Bits.isNegative_ofMagnitude {negative : Bool} {magnitude : Nat}
    (h : magnitude < 2 ^ 63) : (ofMagnitude negative magnitude).isNegative = negative := by
  simp only [ofMagnitude, isNegative, UInt64.toNat_ofNat']
  cases negative <;> simp <;> omega

/-! ### Widening -/

def Float32Bits.isFinite (v : Float32Bits) : Bool :=
  v.magnitude < single.infinity

/-- A finite magnitude of the shorter format, brought to the significand of the longer one. -/
theorem exists_normalized_double {m e : Nat} (h : single.Normalized m e)
    (hfinite : single.pack m e < single.infinity) :
    ∃ m' e', double.Normalized m' e' ∧ double.pack m' e' < double.infinity ∧
      m' * 2 ^ e' = m * 2 ^ e * 2 ^ (double.scale - single.scale) := by
  have hm : m < 2 ^ 24 := h.lt
  have hpack : e * 2 ^ 23 + m < 255 * 2 ^ 23 := hfinite
  have hfull : e = 0 ∨ 2 ^ 23 ≤ m := h.full
  rcases Nat.eq_zero_or_pos m with rfl | hpos
  · refine ⟨0, 0, ⟨by decide, .inl rfl⟩, by decide, by simp⟩
  · -- the significand moves up until its leading bit is that of the longer format
    have hlow : 2 ^ m.log2 ≤ m := Nat.log2_self_le (Nat.ne_of_gt hpos)
    have hhigh : m < 2 ^ (m.log2 + 1) := Nat.lt_log2_self
    have hlog : m.log2 < 24 := (Nat.log2_lt (Nat.ne_of_gt hpos)).mpr hm
    have hup : 2 ^ 52 ≤ m * 2 ^ (52 - m.log2) := by
      have := Nat.mul_le_mul_right (2 ^ (52 - m.log2)) hlow
      rwa [← Nat.pow_add, show m.log2 + (52 - m.log2) = 52 by omega] at this
    have hdown : m * 2 ^ (52 - m.log2) < 2 ^ 53 := by
      have := Nat.mul_lt_mul_of_pos_right hhigh (Nat.two_pow_pos (52 - m.log2))
      rwa [← Nat.pow_add, show m.log2 + 1 + (52 - m.log2) = 53 by omega] at this
    refine ⟨m * 2 ^ (52 - m.log2), e + 873 + m.log2, ⟨hdown, .inr hup⟩, ?_, ?_⟩
    · have hexponent : e + 873 + m.log2 ≤ 2045 := by omega
      have hmul := Nat.mul_le_mul_right (2 ^ 52) hexponent
      exact Nat.lt_of_lt_of_le (Nat.add_lt_add_of_le_of_lt hmul hdown) (by decide)
    · have hscale : double.scale - single.scale = 925 := rfl
      rw [Nat.mul_assoc, ← Nat.pow_add, Nat.mul_assoc, ← Nat.pow_add, hscale,
        show 52 - m.log2 + (e + 873 + m.log2) = e + 925 by omega]

/-- A finite value of the shorter format is a value of the longer one. -/
theorem Float32Bits.steps_widen {v : Float32Bits} (h : v.isFinite) :
    v.widen.isFinite ∧ v.widen.isNegative = v.isNegative ∧
      v.widen.steps = single.steps v.magnitude * 2 ^ (double.scale - single.scale) := by
  have hlt : v.magnitude < single.infinity := of_decide_eq_true h
  obtain ⟨m, e, hnormal, heq⟩ := exists_pack (f := single) (by decide) v.magnitude
  obtain ⟨m', e', hnormal', hfinite, hvalue⟩ := exists_normalized_double hnormal (heq ▸ hlt)
  have hscale : single.scale ≤ double.scale := by decide
  have hexact : single.steps v.magnitude * 2 ^ double.scale = m' * 2 ^ e' * 2 ^ single.scale := by
    rw [heq, steps_pack (by decide) hnormal, hvalue, Nat.mul_assoc _ (2 ^ (_ - _)), ← Nat.pow_add,
      Nat.sub_add_cancel hscale]
  have hwiden : v.widen = .ofMagnitude v.isNegative (double.pack m' e') := by
    rw [Float32Bits.widen, if_pos hlt,
      round_eq_pack (by decide) hnormal' (Nat.two_pow_pos _) hexact,
      Nat.min_eq_right (Nat.le_of_lt hfinite)]
  have hbits : double.pack m' e' < 2 ^ 63 := Nat.lt_trans hfinite (by decide)
  rw [hwiden, Float64Bits.isFinite, Float64Bits.steps, Float64Bits.magnitude_ofMagnitude hbits,
    Float64Bits.isNegative_ofMagnitude hbits, steps_pack (by decide) hnormal', hvalue, heq,
    steps_pack (by decide) hnormal]
  exact ⟨decide_eq_true hfinite, rfl, rfl⟩

/-- Narrowing undoes widening. -/
theorem Float32Bits.narrow_widen {v : Float32Bits} (h : v.isFinite) : v.widen.narrow = v := by
  obtain ⟨hfinite, hnegative, hsteps⟩ := steps_widen h
  obtain ⟨m, e, hnormal, heq⟩ := exists_pack (f := single) (by decide) v.magnitude
  have hlt : v.magnitude < single.infinity := of_decide_eq_true h
  have hscale : single.scale ≤ double.scale := by decide
  have hexact : v.widen.steps * 2 ^ single.scale = m * 2 ^ e * 2 ^ double.scale := by
    rw [hsteps, heq, steps_pack (by decide) hnormal, Nat.mul_assoc _ (2 ^ (_ - _)), ← Nat.pow_add,
      Nat.sub_add_cancel hscale]
  rw [Float64Bits.narrow, if_pos hfinite, hnegative,
    round_eq_pack (by decide) hnormal (Nat.two_pow_pos _) hexact, ← heq,
    Nat.min_eq_right (Nat.le_of_lt hlt), ofMagnitude_magnitude]

/-- No finite value is above the greatest, also once widened. -/
theorem Float32Bits.magnitude_widen_le {v : Float32Bits} (h : v.isFinite) :
    v.widen.magnitude ≤ greatest.widen.magnitude := by
  have hlt : v.magnitude < single.infinity := of_decide_eq_true h
  have hgreatest : greatest.isFinite := by decide
  have hle : single.steps v.magnitude ≤ single.steps greatest.magnitude :=
    (steps_strictMono (by decide)).monotone (Nat.le_pred_of_lt hlt)
  rw [← (steps_strictMono (f := double) (by decide)).le_iff_le]
  show v.widen.steps ≤ greatest.widen.steps
  rw [(steps_widen h).2.2, (steps_widen hgreatest).2.2]
  exact Nat.mul_le_mul_right _ hle

end MinecraftWire
