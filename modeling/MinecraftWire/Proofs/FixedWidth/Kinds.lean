import MinecraftWire.Proofs.Text.Field

/-! The kinds of values of fixed width. Each value is a number, and its one form is that number in
two's complement over the bytes of its kind. An integer is written as a value of an integer kind
exactly if it lies in the range of that kind. -/

namespace MinecraftWire

/-! ### Two's complement -/

namespace Bytes

/-- The low `size` bytes of an integer in two's complement, most significant first. -/
def ofInt (size : Nat) (n : Int) : Bytes :=
  (List.range size).map fun i => UInt8.ofInt (n / 256 ^ (size - 1 - i))

theorem ofInt_succ (size : Nat) (n : Int) :
    ofInt (size + 1) n = ofInt size (n / 256) ++ [UInt8.ofInt n] := by
  rw [ofInt, List.range_succ, List.map_append, List.map_singleton, ofInt]
  have hlast : n / 256 ^ (size + 1 - 1 - size) = n := by simp
  rw [hlast]
  congr 1
  refine List.map_congr_left fun i hi => ?_
  have hlt := List.mem_range.mp hi
  rw [Int.ediv_ediv_of_nonneg (by decide), ← Int.pow_succ']
  congr 3
  omega

/-- A word has the bytes of every integer that it is equal to up to a multiple of the greatest word
and one. -/
theorem ofNat_eq_ofInt {size w : Nat} {n q : Int} (h : n = q * 256 ^ size + w) :
    ofNat size w = ofInt size n := by
  induction size generalizing w n with
  | zero => rfl
  | succ size ih =>
    rw [Int.pow_succ', Int.mul_left_comm] at h
    have hhigh : n / 256 = q * 256 ^ size + ((w / 256 : Nat) : Int) := by omega
    have hlow : UInt8.ofNat w = UInt8.ofInt n := by
      apply UInt8.toNat_inj.mp
      rw [UInt8.ofInt, UInt8.toNat_ofNat', UInt8.toNat_ofNat']
      omega
    rw [ofNat, ofInt_succ, ih hhigh, hlow]

theorem ofNat_toNat_emod (size : Nat) (n : Int) :
    ofNat size (n % 256 ^ size).toNat = ofInt size n := by
  have hpos : (0 : Int) < 256 ^ size := Int.pow_pos (by decide)
  refine ofNat_eq_ofInt (q := n / 256 ^ size) ?_
  rw [Int.toNat_of_nonneg (Int.emod_nonneg n (Int.ne_of_gt hpos)), Int.mul_comm,
    Int.mul_ediv_add_emod]

example : ofInt 4 (-2) = [0xFF, 0xFF, 0xFF, 0xFE] := by decide

end Bytes

namespace FixedInteger

open FixedWidth (size toWord put take Lawful Canonical)

/-- The word of a value is what two's complement makes of its integer. -/
class TwosComplement (α : Type) [FixedInteger α] : Prop where
  toWord_eq_emod (v : α) : toWord v = (toInt v % 256 ^ size α).toNat

theorem toNat_eq_emod {w : Nat} (x : BitVec w) : x.toNat = (x.toInt % (2 ^ w : Nat)).toNat := by
  rw [BitVec.toInt_eq_toNat_bmod, Int.bmod_emod, ← Int.natCast_emod, Int.toNat_natCast,
    Nat.mod_eq_of_lt x.isLt]

instance : TwosComplement Int8 where
  toWord_eq_emod v := toNat_eq_emod v.toBitVec

instance : TwosComplement Int16 where
  toWord_eq_emod v := toNat_eq_emod v.toBitVec

instance : TwosComplement Int32 where
  toWord_eq_emod v := toNat_eq_emod v.toBitVec

instance : TwosComplement Int64 where
  toWord_eq_emod v := toNat_eq_emod v.toBitVec

/-- A number without a sign is its own word. -/
theorem eq_toNat_emod (size : Nat) {n : Nat} (h : n < 256 ^ size) :
    n = ((n : Int) % 256 ^ size).toNat := by
  have hcast : ((256 ^ size : Nat) : Int) = 256 ^ size := by simp
  rw [← hcast, ← Int.natCast_emod, Int.toNat_natCast, Nat.mod_eq_of_lt h]

instance : TwosComplement UInt8 where
  toWord_eq_emod v := eq_toNat_emod 1 v.toNat_lt

instance : TwosComplement UInt16 where
  toWord_eq_emod v := eq_toNat_emod 2 v.toNat_lt

instance : TwosComplement UInt32 where
  toWord_eq_emod v := eq_toNat_emod 4 v.toNat_lt

instance : TwosComplement UInt64 where
  toWord_eq_emod v := eq_toNat_emod 8 v.toNat_lt

variable {α : Type} [FixedInteger α]

theorem put_eq_ofInt [TwosComplement α] (v : α) : put v = Bytes.ofInt (size α) (toInt v) := by
  rw [put, TwosComplement.toWord_eq_emod, Bytes.ofNat_toNat_emod]

/-- An integer in range has the form of the value that it is. -/
theorem encode_of_le [TwosComplement α] [Exact α] {n : Int} (hlower : lower α ≤ n)
    (hupper : n ≤ upper α) : encode α n = .ok (Bytes.ofInt (size α) n) := by
  rw [encode, narrow, narrowAs, if_pos ⟨hlower, hupper⟩, Except.map, put_eq_ofInt,
    Exact.toInt_ofInt hlower hupper]

theorem encode_of_not_le {n : Int} (h : ¬ (lower α ≤ n ∧ n ≤ upper α)) :
    encode α n = .error (.range ⟨FixedWidth.kind α, .number n, .number (lower α),
      .number (upper α)⟩) := by
  rw [encode, narrow, narrowAs, if_neg h, Except.map]

/-- All that is known of the forms and the range of an integer type. -/
class Regular (α : Type) [FixedInteger α] : Prop
  extends Lawful α, Canonical α, Exact α, TwosComplement α

instance [Lawful α] [Canonical α] [Exact α] [TwosComplement α] : Regular α where

/-! ### Integers -/

/-- The kinds that an integer is checked against before it is written. -/
inductive Kind where
  | i8 | u8 | i16 | u16 | i32 | u32 | i64 | u64
  deriving DecidableEq, Repr

namespace Kind

abbrev Value : Kind → Type
  | i8 => Int8
  | u8 => UInt8
  | i16 => Int16
  | u16 => UInt16
  | i32 => Int32
  | u32 => UInt32
  | i64 => Int64
  | u64 => UInt64

instance : (k : Kind) → FixedInteger k.Value
  | i8 => inferInstanceAs (FixedInteger Int8)
  | u8 => inferInstanceAs (FixedInteger UInt8)
  | i16 => inferInstanceAs (FixedInteger Int16)
  | u16 => inferInstanceAs (FixedInteger UInt16)
  | i32 => inferInstanceAs (FixedInteger Int32)
  | u32 => inferInstanceAs (FixedInteger UInt32)
  | i64 => inferInstanceAs (FixedInteger Int64)
  | u64 => inferInstanceAs (FixedInteger UInt64)

def signed : Kind → Bool
  | i8 | i16 | i32 | i64 => true
  | u8 | u16 | u32 | u64 => false

def bits : Kind → Nat
  | i8 | u8 => 8
  | i16 | u16 => 16
  | i32 | u32 => 32
  | i64 | u64 => 64

def least (k : Kind) : Int :=
  if k.signed then -2 ^ (k.bits - 1) else 0

def greatest (k : Kind) : Int :=
  if k.signed then 2 ^ (k.bits - 1) - 1 else 2 ^ k.bits - 1

/-- The number of bytes of a kind. -/
def size (k : Kind) : Nat :=
  k.bits / 8

instance (k : Kind) : Regular k.Value := by
  cases k
  case i8 => exact inferInstanceAs (Regular Int8)
  case u8 => exact inferInstanceAs (Regular UInt8)
  case i16 => exact inferInstanceAs (Regular Int16)
  case u16 => exact inferInstanceAs (Regular UInt16)
  case i32 => exact inferInstanceAs (Regular Int32)
  case u32 => exact inferInstanceAs (Regular UInt32)
  case i64 => exact inferInstanceAs (Regular Int64)
  case u64 => exact inferInstanceAs (Regular UInt64)

theorem size_eq (k : Kind) : FixedWidth.size k.Value = k.size := by cases k <;> rfl

theorem lower_eq (k : Kind) : lower k.Value = k.least := by cases k <;> rfl

theorem upper_eq (k : Kind) : upper k.Value = k.greatest := by cases k <;> rfl

/-- How an integer is checked and written. One that lies in the range of the kind becomes the value
that it is; any other is out of range, and then nothing is written. -/
structure Checked (k : Kind) : Prop where
  narrow_ok_iff (n : Int) :
    (∃ v, narrow k.Value n = .ok v) ↔ k.least ≤ n ∧ n ≤ k.greatest
  toInt_of_narrow {n : Int} {v : k.Value} : narrow k.Value n = .ok v → toInt v = n
  emit_of_le {n : Int} : k.least ≤ n → n ≤ k.greatest → ∀ sink : Sink,
    sink.emit [encode k.Value n] = sink.write (Bytes.ofInt k.size n)
  emit_of_not_le {n : Int} : ¬ (k.least ≤ n ∧ n ≤ k.greatest) → ∀ sink : Sink,
    sink.emit [encode k.Value n] =
      (.error (.range ⟨FixedWidth.kind k.Value, .number n, .number k.least, .number k.greatest⟩),
        sink)

theorem checked (k : Kind) : Checked k where
  narrow_ok_iff n := by
    rw [← lower_eq, ← upper_eq]
    rcases narrowAs_outcome k.Value (FixedWidth.kind k.Value) n with
      ⟨hrange, v, hv, -⟩ | ⟨hrange, fault, hfault, -⟩
    · exact iff_of_true ⟨v, hv⟩ hrange
    · refine iff_of_false (fun ⟨v, hv⟩ => ?_) hrange
      rw [narrow, hfault] at hv
      contradiction
  toInt_of_narrow {n v} h := by
    rcases narrowAs_outcome k.Value (FixedWidth.kind k.Value) n with
      ⟨-, v', hv, hn⟩ | ⟨-, fault, hfault, -⟩
    · rw [narrow, hv] at h
      rw [← Except.ok.inj h, hn]
    · rw [narrow, hfault] at h
      contradiction
  emit_of_le hlower hupper sink := by
    rw [encode_of_le (by rwa [lower_eq]) (by rwa [upper_eq]), Sink.emit_ok, size_eq]
  emit_of_not_le h sink := by
    rw [encode_of_not_le (by rwa [lower_eq, upper_eq]), Sink.emit_error, lower_eq, upper_eq]

end Kind

end FixedInteger

/-! ### All kinds -/

namespace FixedWidth

/-- The kinds of values of fixed width. -/
inductive Kind where
  | integer (k : FixedInteger.Kind)
  | u128 | f32 | f64 | bool
  deriving DecidableEq, Repr

namespace Kind

abbrev Value : Kind → Type
  | integer k => k.Value
  | u128 => Uuid
  | f32 => Float32Bits
  | f64 => Float64Bits
  | bool => Bool

instance : (k : Kind) → FixedWidth k.Value
  | integer k => inferInstanceAs (FixedWidth k.Value)
  | u128 => inferInstanceAs (FixedWidth Uuid)
  | f32 => inferInstanceAs (FixedWidth Float32Bits)
  | f64 => inferInstanceAs (FixedWidth Float64Bits)
  | bool => inferInstanceAs (FixedWidth Bool)

/-- The number of bytes of a kind. -/
def size : Kind → Nat
  | integer k => k.size
  | u128 => 16
  | f32 => 4
  | f64 => 8
  | bool => 1

/-- The number that a value is: an integer, bits, or a truth value as 0 or 1. -/
def number : (k : Kind) → k.Value → Int
  | integer _, v => FixedInteger.toInt v
  | u128, v => v.toNat
  | f32, v => v.bits.toNat
  | f64, v => v.bits.toNat
  | bool, v => if v then 1 else 0

instance (k : Kind) : Lawful k.Value := by
  cases k
  case integer k => exact inferInstanceAs (Lawful k.Value)
  case u128 => exact inferInstanceAs (Lawful Uuid)
  case f32 => exact inferInstanceAs (Lawful Float32Bits)
  case f64 => exact inferInstanceAs (Lawful Float64Bits)
  case bool => exact inferInstanceAs (Lawful Bool)

instance (k : Kind) : Canonical k.Value := by
  cases k
  case integer k => exact inferInstanceAs (Canonical k.Value)
  case u128 => exact inferInstanceAs (Canonical Uuid)
  case f32 => exact inferInstanceAs (Canonical Float32Bits)
  case f64 => exact inferInstanceAs (Canonical Float64Bits)
  case bool => exact inferInstanceAs (Canonical Bool)

theorem size_eq (k : Kind) : FixedWidth.size k.Value = k.size := by
  cases k with
  | integer k => exact k.size_eq
  | u128 | f32 | f64 | bool => rfl

/-- The form of a value without a sign. -/
theorem ofNat_eq_ofInt (size n : Nat) : Bytes.ofNat size n = Bytes.ofInt size n :=
  Bytes.ofNat_eq_ofInt (q := 0) (by simp)

theorem put_eq (k : Kind) (v : k.Value) : put v = Bytes.ofInt k.size (k.number v) := by
  cases k with
  | integer k => rw [size, ← k.size_eq, number, ← FixedInteger.put_eq_ofInt]
  | u128 => exact ofNat_eq_ofInt 16 _
  | f32 => exact ofNat_eq_ofInt 4 _
  | f64 => exact ofNat_eq_ofInt 8 _
  | bool => cases v <;> rfl

/-- Truth values apart, every word is a value. -/
theorem exists_ofWord? {k : Kind} (hk : k ≠ .bool) (n : Nat) :
    ∃ v : k.Value, ofWord? n = some v := by
  cases k with
  | integer k => cases k <;> exact ⟨_, rfl⟩
  | u128 | f32 | f64 => exact ⟨_, rfl⟩
  | bool => exact absurd rfl hk

/-- Whether bytes are a form: as many as the kind has, and for a truth value 0 or 1. -/
def Accepts (k : Kind) (bytes : Bytes) : Prop :=
  bytes.length = k.size ∧ (k = .bool → bytes = [0] ∨ bytes = [1])

theorem take_ok_iff (k : Kind) (bytes : Bytes) :
    (∃ v, take k.Value bytes = .ok v) ↔ k.Accepts bytes := by
  constructor
  · rintro ⟨v, hv⟩
    obtain rfl := take_eq_ok_iff.mp hv
    refine ⟨by rw [length_put, size_eq], ?_⟩
    rintro rfl
    cases v
    · exact .inl rfl
    · exact .inr rfl
  · rintro ⟨hlength, hbool⟩
    by_cases hk : k = .bool
    · subst hk
      rcases hbool rfl with rfl | rfl
      · exact ⟨false, rfl⟩
      · exact ⟨true, rfl⟩
    · obtain ⟨v, hv⟩ := exists_ofWord? hk (Bytes.toNat bytes)
      exact ⟨v, take_of_ofWord? (by rw [hlength, size_eq]) hv⟩

/-- How values are written and taken. The form of a value is its number over the bytes of the kind,
and is appended to what was written before. Bytes are taken as a value exactly if they are the form
of that value; others are malformed. -/
structure Formed (k : Kind) : Prop where
  length_put (v : k.Value) : (put v).length = k.size
  put_eq (v : k.Value) : put v = Bytes.ofInt k.size (k.number v)
  emit_put (v : k.Value) (held : Bytes) :
    Sink.emit [.ok (put v)] ⟨held, none⟩ = (.ok (), ⟨held ++ put v, none⟩)
  take_put (v : k.Value) : take k.Value (put v) = .ok v
  take_ok_iff (bytes : Bytes) : (∃ v, take k.Value bytes = .ok v) ↔ k.Accepts bytes
  put_of_take {bytes : Bytes} {v : k.Value} : take k.Value bytes = .ok v → put v = bytes
  take_of_not_accepts {bytes : Bytes} : ¬ k.Accepts bytes →
    take k.Value bytes = .error (.format (refusal k.Value bytes))

theorem formed (k : Kind) : Formed k where
  length_put v := by rw [length_put, size_eq]
  put_eq := k.put_eq
  emit_put v held := Sink.emit_ok _ _
  take_put := take_put
  take_ok_iff := k.take_ok_iff
  put_of_take h := (take_eq_ok_iff.mp h).symm
  take_of_not_accepts h := take_of_not_ok fun hok => h ((k.take_ok_iff _).mp hok)

/-- The values of every kind have one form each, which is read back as that value. An integer is
written as a value of an integer kind exactly if the kind has it; otherwise nothing is written. -/
theorem one_form_each (k : Kind) (i : FixedInteger.Kind) : k.Formed ∧ i.Checked :=
  ⟨k.formed, i.checked⟩

end Kind

end FixedWidth

end MinecraftWire
