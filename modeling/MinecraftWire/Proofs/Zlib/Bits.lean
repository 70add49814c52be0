import MinecraftWire.Zlib.Block

/-! Bits packed into bytes and read again. A place in a byte string is known by the bits from there
on and by its offset in its byte; what reads bits takes them off the front and moves on by their
number. -/

namespace MinecraftWire.Zlib

open Block

/-! ### Numbers as bits -/

theorem length_lowBits (n k : Nat) : (lowBits n k).length = n := by
  induction n generalizing k with
  | zero => rfl
  | succ n ih => rw [lowBits, List.length_cons, ih]

theorem lowBits_append {m : Nat} (n k : Nat) {p : Nat} (hp : p < 2 ^ m) :
    lowBits (m + n) (p + k * 2 ^ m) = lowBits m p ++ lowBits n k := by
  induction m generalizing p with
  | zero =>
    obtain rfl : p = 0 := by omega
    simp [lowBits]
  | succ m ih =>
    have hpow : k * 2 ^ (m + 1) = 2 * (k * 2 ^ m) := by
      rw [Nat.pow_succ, ← Nat.mul_assoc, Nat.mul_comm]
    have hhalf : (p + k * 2 ^ (m + 1)) / 2 = p / 2 + k * 2 ^ m := by omega
    have hbit : (p + k * 2 ^ (m + 1)).testBit 0 = p.testBit 0 := by
      rw [Nat.testBit_zero, Nat.testBit_zero, hpow, Nat.add_mul_mod_self_left]
    rw [Nat.succ_add, lowBits, hhalf, hbit, ih (by rw [Nat.pow_succ] at hp; omega), lowBits,
      List.cons_append]

theorem lowBits_zero (n : Nat) : lowBits n 0 = List.replicate n false := by
  induction n with
  | zero => rfl
  | succ n ih => rw [lowBits, Nat.zero_div, ih, Nat.zero_testBit, List.replicate_succ]

/-- A number below a power of two has zeros from there on. -/
theorem lowBits_of_lt {m p : Nat} (n : Nat) (hp : p < 2 ^ m) :
    lowBits (m + n) p = lowBits m p ++ List.replicate n false := by
  have h := lowBits_append n 0 hp
  rwa [Nat.zero_mul, Nat.add_zero, lowBits_zero] at h

theorem lowBits_one (b : Bool) : lowBits 1 b.toNat = [b] := by
  cases b <;> rfl

theorem drop_lowBits {i n : Nat} (k : Nat) (hi : i < n) :
    (lowBits n k).drop i = k.testBit i :: (lowBits n k).drop (i + 1) := by
  induction n generalizing i k with
  | zero => omega
  | succ n ih =>
    cases i with
    | zero => rfl
    | succ i =>
      rw [lowBits, List.drop_succ_cons, List.drop_succ_cons, ih _ (by omega), Nat.testBit_succ]

/-- The bits of bytes, the low bit of each byte first. -/
def bitsOf (bytes : Bytes) : List Bool :=
  bytes.flatMap fun b => lowBits 8 b.toNat

theorem bitsOf_cons (b : UInt8) (bytes : Bytes) :
    bitsOf (b :: bytes) = lowBits 8 b.toNat ++ bitsOf bytes := rfl

theorem bitsOf_append (xs ys : Bytes) : bitsOf (xs ++ ys) = bitsOf xs ++ bitsOf ys :=
  List.flatMap_append

theorem bitsOf_ofNat {n : Nat} (hn : n < 256) : bitsOf [UInt8.ofNat n] = lowBits 8 n := by
  rw [bitsOf_cons, UInt8.toNat_ofNat', Nat.mod_eq_of_lt hn]
  exact List.append_nil _

theorem length_bitsOf (bytes : Bytes) : (bitsOf bytes).length = 8 * bytes.length := by
  induction bytes with
  | nil => rfl
  | cons b bytes ih =>
    rw [bitsOf_cons, List.length_append, length_lowBits, ih, List.length_cons]
    omega

/-! ### Places -/

namespace BitSource

/-- The place has the given bits from there on and lies `offset` bits behind the start of a byte. -/
structure At (s : BitSource) (offset : Nat) (bits : List Bool) : Prop where
  bits_eq : (bitsOf s.bytes).drop s.offset = bits
  offset_eq : s.offset.val = offset % 8

/-- From a place with the given bits in front `read` gives `a` and moves behind these bits. -/
def Takes {α : Type} (read : BitSource → Except Stop (α × BitSource)) (bits : List Bool) (a : α) :
    Prop :=
  ∀ s offset rest, At s offset (bits ++ rest) →
    ∃ s', read s = .ok (a, s') ∧ At s' (offset + bits.length) rest

theorem at_ofBytes (bytes : Bytes) : (ofBytes bytes).At 0 (bitsOf bytes) :=
  ⟨rfl, rfl⟩

theorem takes_next (bit : Bool) : Takes next [bit] bit := by
  rintro ⟨bytes, offset⟩ place rest ⟨hbits, hoffset⟩
  cases bytes with
  | nil => simp [bitsOf] at hbits
  | cons b bytes =>
    have hdrop : (bitsOf (b :: bytes)).drop offset =
        b.toNat.testBit offset :: (bitsOf (b :: bytes)).drop (offset + 1) := by
      rw [bitsOf_cons, List.drop_append_of_le_length (by rw [length_lowBits]; omega),
        List.drop_append_of_le_length (by rw [length_lowBits]; omega), drop_lowBits _ offset.isLt]
      rfl
    simp only [List.singleton_append] at hbits hoffset
    rw [hdrop] at hbits
    obtain ⟨hbit, hrest⟩ := List.cons.inj hbits
    by_cases hlast : offset.val < 7
    · refine ⟨⟨b :: bytes, ⟨offset + 1, by omega⟩⟩, ?_, hrest, ?_⟩
      · simp [next, hlast, hbit]
      · simp only [List.length_singleton]
        omega
    · refine ⟨⟨bytes, 0⟩, ?_, ?_, ?_⟩
      · simp [next, hlast, hbit]
      · rw [← hrest, show offset.val + 1 = 8 by omega, bitsOf_cons]
        simp [length_lowBits]
      · simp only [List.length_singleton]
        omega

theorem takes_take {n k : Nat} (hk : k < 2 ^ n) : Takes (take n) (lowBits n k) k := by
  induction n generalizing k with
  | zero =>
    intro s offset rest hs
    obtain rfl : k = 0 := by omega
    exact ⟨s, rfl, hs⟩
  | succ n ih =>
    intro s offset rest hs
    obtain ⟨s₁, h₁, hs₁⟩ := takes_next (k.testBit 0) s offset (lowBits n (k / 2) ++ rest) hs
    obtain ⟨s₂, h₂, hs₂⟩ := ih (k := k / 2) (by rw [Nat.pow_succ] at hk; omega) s₁ _ rest hs₁
    have hvalue : 2 * (k / 2) + (k.testBit 0).toNat = k := by
      rw [Nat.testBit_zero]
      have := Nat.mod_two_eq_zero_or_one k
      rcases this with h | h <;> simp [h] <;> omega
    refine ⟨s₂, ?_, ?_⟩
    · simp only [take, h₁, h₂, hvalue]
    · rw [length_lowBits] at hs₂ ⊢
      rwa [List.length_singleton, Nat.add_assoc, Nat.add_comm 1 n] at hs₂

end BitSource

/-! ### Whole bytes -/

theorem lowBits_inj {n j k : Nat} (hj : j < 2 ^ n) (hk : k < 2 ^ n)
    (h : lowBits n j = lowBits n k) : j = k := by
  induction n generalizing j k with
  | zero => omega
  | succ n ih =>
    rw [Nat.pow_succ] at hj hk
    obtain ⟨hbit, hhalf⟩ := List.cons.inj h
    have := ih (by omega) (by omega) hhalf
    rw [Nat.testBit_zero, Nat.testBit_zero, decide_eq_decide] at hbit
    omega

/-- Bits that begin with whole bytes come from a byte string that begins with these bytes. -/
theorem eq_append_of_bitsOf {bytes front : Bytes} {rest : List Bool}
    (h : bitsOf bytes = bitsOf front ++ rest) :
    ∃ back, bytes = front ++ back ∧ bitsOf back = rest := by
  induction front generalizing bytes with
  | nil => exact ⟨bytes, rfl, h⟩
  | cons c front ih =>
    cases bytes with
    | nil => simp [bitsOf, lowBits] at h
    | cons b bytes =>
      rw [bitsOf_cons, bitsOf_cons, List.append_assoc] at h
      obtain ⟨hbyte, hbytes⟩ := List.append_inj h (by rw [length_lowBits, length_lowBits])
      obtain rfl := UInt8.toNat_inj.mp (lowBits_inj b.toNat_lt c.toNat_lt hbyte)
      obtain ⟨back, rfl, hback⟩ := ih hbytes
      exact ⟨back, rfl, hback⟩

/-- Padding to the end of a byte leaves the bytes behind. -/
theorem BitSource.At.aligned {s : BitSource} {offset : Nat} {bytes : Bytes} {rest : List Bool}
    (h : s.At offset (padding offset ++ bitsOf bytes ++ rest)) :
    ∃ back, s.aligned = bytes ++ back ∧ bitsOf back = rest := by
  obtain ⟨hbits, hoffset⟩ := h
  apply eq_append_of_bitsOf
  unfold BitSource.aligned
  by_cases hzero : s.offset = 0
  · have : offset % 8 = 0 := by simpa [hzero] using hoffset.symm
    rw [if_pos hzero]
    simpa [hzero, padding, this] using hbits
  · rw [if_neg hzero]
    have hpos : s.offset.val ≠ 0 := fun h => hzero (Fin.ext h)
    cases hb : s.bytes with
    | nil =>
      have hlength := congrArg List.length hbits
      simp only [hb, bitsOf, List.flatMap_nil, List.drop_nil, List.length_nil, padding,
        List.length_append, List.length_replicate] at hlength
      omega
    | cons b bytes' =>
      rw [hb, bitsOf_cons, List.drop_append_of_le_length (by rw [length_lowBits]; omega),
        List.append_assoc] at hbits
      have hsize : ((lowBits 8 b.toNat).drop s.offset).length = (padding offset).length := by
        rw [List.length_drop, length_lowBits, padding, List.length_replicate]
        omega
      exact (List.append_inj hbits hsize).2

/-! ### Packing -/

/-- The bytes given out so far, the bits of the next one and the bits to come are the bits of the
packed bytes, up to the zeros that fill the last one. -/
theorem bitsOf_packGo (bits : List Bool) (acc : Bytes) (partialByte count : Nat) (hcount : count < 8)
    (hbyte : partialByte < 2 ^ count) :
    bitsOf (pack.go acc partialByte count bits) =
      bitsOf acc.reverse ++ lowBits count partialByte ++ bits ++ padding (count + bits.length) := by
  induction bits generalizing acc partialByte count with
  | nil =>
    by_cases hzero : count = 0
    · subst hzero
      simp [pack.go, lowBits, padding]
    · have hlt : partialByte < 256 :=
        Nat.lt_of_lt_of_le hbyte (Nat.pow_le_pow_right (n := 2) (by omega) (by omega : count ≤ 8))
      have hfill := lowBits_of_lt (8 - count) hbyte
      rw [show count + (8 - count) = 8 by omega] at hfill
      have hpad : padding (count + ([] : List Bool).length) = List.replicate (8 - count) false := by
        rw [padding, List.length_nil]
        congr 1
        omega
      rw [pack.go, if_neg hzero, List.reverse_cons, bitsOf_append, hpad, List.append_nil,
        List.append_assoc, ← hfill, bitsOf_ofNat hlt]
  | cons bit bits ih =>
    have hnext : partialByte + bit.toNat * 2 ^ count < 2 ^ (count + 1) := by
      rw [Nat.pow_succ]
      cases bit <;> simp <;> omega
    have hjoin := lowBits_append 1 bit.toNat hbyte
    rw [lowBits_one] at hjoin
    have hlength : padding (count + (bit :: bits).length) = padding (count + 1 + bits.length) := by
      rw [List.length_cons, Nat.add_right_comm, Nat.add_assoc]
    rw [pack.go, hlength]
    split
    · rw [ih _ _ _ (by omega) hnext, hjoin]
      simp
    · obtain rfl : count = 7 := by omega
      have hpad : padding (0 + bits.length) = padding (7 + 1 + bits.length) := by
        rw [padding, padding]
        congr 1
        omega
      rw [ih _ _ _ (by omega) (by omega), hpad, List.reverse_cons, bitsOf_append,
        bitsOf_ofNat hnext, hjoin]
      simp [lowBits]

theorem bitsOf_pack (bits : List Bool) : bitsOf (pack bits) = bits ++ padding bits.length := by
  rw [pack, bitsOf_packGo bits [] 0 0 (by omega) (by omega)]
  simp [bitsOf, lowBits]

end MinecraftWire.Zlib
