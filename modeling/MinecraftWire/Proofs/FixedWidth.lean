import MinecraftWire.Proofs.Reader
import Mathlib.Data.List.Induction

/-! Values of fixed width. Every kind's word fits into its bytes and is a word of that kind again,
so a value is read back from its bytes. -/

namespace MinecraftWire

namespace Bytes

/-- Bytes keep the low bits of a number. -/
theorem toNat_ofNat (size n : Nat) : toNat (ofNat size n) = n % 256 ^ size := by
  induction size generalizing n with
  | zero => simp [ofNat, toNat, Nat.mod_one]
  | succ size ih =>
    have hsplit : n % 256 ^ (size + 1) = n % 256 + 256 * (n / 256 % 256 ^ size) := by
      rw [Nat.pow_succ', Nat.mod_mul]
    rw [ofNat, toNat_append_singleton, ih, UInt8.toNat_ofNat', hsplit, Nat.add_comm]

theorem toNat_lt (bytes : Bytes) : toNat bytes < 256 ^ bytes.length := by
  induction bytes using List.reverseRecOn with
  | nil => decide
  | append_singleton bytes b ih =>
    have hb := b.toNat_lt
    rw [toNat_append_singleton, List.length_append, List.length_singleton, Nat.pow_succ]
    omega

/-- Bytes are the only ones of their length for the number that they are. -/
theorem ofNat_toNat (bytes : Bytes) : ofNat bytes.length (toNat bytes) = bytes := by
  induction bytes using List.reverseRecOn with
  | nil => rfl
  | append_singleton bytes b ih =>
    have hb := b.toNat_lt
    have hlow : UInt8.ofNat (256 * toNat bytes + b.toNat) = b := by
      apply UInt8.toNat_inj.mp
      rw [UInt8.toNat_ofNat']
      omega
    have hhigh : (256 * toNat bytes + b.toNat) / 256 = toNat bytes := by omega
    rw [List.length_append, List.length_singleton, toNat_append_singleton, ofNat, hlow, hhigh, ih]

end Bytes

namespace FixedWidth

/-- Each value has a word of its own, within the bytes of its kind. -/
class Lawful (α : Type) [FixedWidth α] : Prop where
  toWord_lt (v : α) : toWord v < 256 ^ size α
  ofWord?_toWord (v : α) : ofWord? (toWord v) = some v

variable {α : Type} [FixedWidth α]

theorem length_put (v : α) : (put v).length = size α :=
  Bytes.length_ofNat _ _

theorem take_put [Lawful α] (v : α) : take α (put v) = .ok v := by
  have hword : Bytes.toNat (put v) = toWord v := by
    rw [put, Bytes.toNat_ofNat, Nat.mod_eq_of_lt (Lawful.toWord_lt v)]
  simp [take, length_put, hword, Lawful.ofWord?_toWord]

theorem length_flatMap_put (vs : List α) : (vs.flatMap put).length = size α * vs.length := by
  induction vs with
  | nil => rfl
  | cons v vs ih =>
    rw [List.flatMap_cons, List.length_append, length_put, ih, List.length_cons, Nat.mul_succ,
      Nat.add_comm]

theorem takeMany_flatMap_put [Lawful α] (vs acc : List α) :
    takeMany α acc vs.length (vs.flatMap put) = .ok (acc.reverse ++ vs) := by
  induction vs generalizing acc with
  | nil => simp [takeMany]
  | cons v vs ih =>
    have hsplit : (put v ++ vs.flatMap put).splitAt (size α) = (put v, vs.flatMap put) := by
      rw [List.splitAt_eq, List.take_left' (length_put v), List.drop_left' (length_put v)]
    rw [List.length_cons, List.flatMap_cons, takeMany, hsplit]
    simp only [take_put]
    rw [ih, List.reverse_cons, List.append_assoc, List.singleton_append]

instance : Lawful Int8 where
  toWord_lt v := v.toUInt8.toNat_lt
  ofWord?_toWord v := by simp [ofWord?, toWord]

instance : Lawful UInt8 where
  toWord_lt v := v.toNat_lt
  ofWord?_toWord v := by simp [ofWord?, toWord]

instance : Lawful Int16 where
  toWord_lt v := v.toUInt16.toNat_lt
  ofWord?_toWord v := by simp [ofWord?, toWord]

instance : Lawful UInt16 where
  toWord_lt v := v.toNat_lt
  ofWord?_toWord v := by simp [ofWord?, toWord]

instance : Lawful Int32 where
  toWord_lt v := v.toUInt32.toNat_lt
  ofWord?_toWord v := by simp [ofWord?, toWord]

instance : Lawful UInt32 where
  toWord_lt v := v.toNat_lt
  ofWord?_toWord v := by simp [ofWord?, toWord]

instance : Lawful Int64 where
  toWord_lt v := v.toUInt64.toNat_lt
  ofWord?_toWord v := by simp [ofWord?, toWord]

instance : Lawful UInt64 where
  toWord_lt v := v.toNat_lt
  ofWord?_toWord v := by simp [ofWord?, toWord]

instance : Lawful Uuid where
  toWord_lt v := v.isLt
  ofWord?_toWord v := by simp [ofWord?, toWord]

instance : Lawful Float32Bits where
  toWord_lt v := v.bits.toNat_lt
  ofWord?_toWord v := by simp [ofWord?, toWord]

instance : Lawful Float64Bits where
  toWord_lt v := v.bits.toNat_lt
  ofWord?_toWord v := by simp [ofWord?, toWord]

instance : Lawful Bool where
  toWord_lt v := by cases v <;> decide
  ofWord?_toWord v := by cases v <;> rfl

/-- No two words that fit stand for one value. -/
class Canonical (α : Type) [FixedWidth α] : Prop where
  toWord_eq {n : Nat} {v : α} : ofWord? n = some v → n < 256 ^ size α → toWord v = n

/-- A value is written as the word that it was taken from. -/
theorem put_of_ofWord? [Canonical α] {n : Nat} {v : α} (h : ofWord? n = some v)
    (hlt : n < 256 ^ size α) : put v = Bytes.ofNat (size α) n := by
  rw [put, Canonical.toWord_eq h hlt]

/-- Where every word is a value, it is enough that each word that fits is that of its value. -/
theorem canonical_of_total (ofWord : Nat → α) (hof : ∀ n, ofWord? n = some (ofWord n))
    (h : ∀ n, n < 256 ^ size α → toWord (ofWord n) = n) : Canonical α where
  toWord_eq {n v} hv hlt := by
    rw [hof] at hv
    obtain rfl := Option.some.inj hv
    exact h n hlt

instance : Canonical Int8 :=
  canonical_of_total Int8.ofNat (fun _ => rfl) fun _ hlt => UInt8.toNat_ofNat_of_lt' hlt

instance : Canonical UInt8 :=
  canonical_of_total UInt8.ofNat (fun _ => rfl) fun _ hlt => UInt8.toNat_ofNat_of_lt' hlt

instance : Canonical Int16 :=
  canonical_of_total Int16.ofNat (fun _ => rfl) fun _ hlt => UInt16.toNat_ofNat_of_lt' hlt

instance : Canonical UInt16 :=
  canonical_of_total UInt16.ofNat (fun _ => rfl) fun _ hlt => UInt16.toNat_ofNat_of_lt' hlt

instance : Canonical Int32 :=
  canonical_of_total Int32.ofNat (fun _ => rfl) fun _ hlt => UInt32.toNat_ofNat_of_lt' hlt

instance : Canonical UInt32 :=
  canonical_of_total UInt32.ofNat (fun _ => rfl) fun _ hlt => UInt32.toNat_ofNat_of_lt' hlt

instance : Canonical Int64 :=
  canonical_of_total Int64.ofNat (fun _ => rfl) fun _ hlt => UInt64.toNat_ofNat_of_lt' hlt

instance : Canonical UInt64 :=
  canonical_of_total UInt64.ofNat (fun _ => rfl) fun _ hlt => UInt64.toNat_ofNat_of_lt' hlt

instance : Canonical Uuid :=
  canonical_of_total (BitVec.ofNat 128) (fun _ => rfl) fun _ hlt =>
    (BitVec.toNat_ofNat _ _).trans (Nat.mod_eq_of_lt hlt)

instance : Canonical Float32Bits :=
  canonical_of_total (fun n => ⟨UInt32.ofNat n⟩) (fun _ => rfl) fun _ hlt =>
    UInt32.toNat_ofNat_of_lt' hlt

instance : Canonical Float64Bits :=
  canonical_of_total (fun n => ⟨UInt64.ofNat n⟩) (fun _ => rfl) fun _ hlt =>
    UInt64.toNat_ofNat_of_lt' hlt

instance : Canonical Bool where
  toWord_eq {n v} hv _ := by
    simp only [ofWord?] at hv
    split at hv
    · obtain rfl := Option.some.inj hv
      exact ‹n = 0›.symm
    · split at hv
      · obtain rfl := Option.some.inj hv
        exact ‹n = 1›.symm
      · simp at hv

theorem take_of_ofWord? {bytes : Bytes} {v : α} (hlength : bytes.length = size α)
    (hv : ofWord? (Bytes.toNat bytes) = some v) : take α bytes = .ok v := by
  rw [take, if_pos hlength, hv]

/-- Bytes are taken as a value exactly if they are its form. -/
theorem take_eq_ok_iff [Lawful α] [Canonical α] {bytes : Bytes} {v : α} :
    take α bytes = .ok v ↔ bytes = put v := by
  refine ⟨fun h => ?_, fun h => h ▸ take_put v⟩
  unfold take at h
  split at h
  · rename_i hlength
    have hlt := Bytes.toNat_lt bytes
    split at h
    · rename_i v' hv
      obtain rfl := Except.ok.inj h
      rw [put_of_ofWord? hv (hlength ▸ hlt), ← hlength, Bytes.ofNat_toNat]
    · simp at h
  · simp at h

/-- What is no form of a value is refused as a whole. -/
theorem take_of_not_ok {bytes : Bytes} (h : ¬ ∃ v, take α bytes = .ok v) :
    take α bytes = .error (.format (refusal α bytes)) := by
  unfold take at h ⊢
  split
  · rename_i hlength
    rw [if_pos hlength] at h
    split
    · rename_i v hv
      exact absurd ⟨v, by rw [hv]⟩ h
    · rfl
  · rfl

end FixedWidth

namespace FixedInteger

/-- A value is an integer within the bounds of its type, and that integer is this value. -/
class Faithful (α : Type) [FixedInteger α] : Prop where
  lower_le (v : α) : lower α ≤ toInt v
  le_upper (v : α) : toInt v ≤ upper α
  ofInt_toInt (v : α) : ofInt (toInt v) = v

instance : Faithful Int8 where
  lower_le := Int8.le_toInt
  le_upper v := Int.le_sub_one_of_lt v.toInt_lt
  ofInt_toInt := Int8.ofInt_toInt

instance : Faithful Int16 where
  lower_le := Int16.le_toInt
  le_upper v := Int.le_sub_one_of_lt v.toInt_lt
  ofInt_toInt := Int16.ofInt_toInt

instance : Faithful Int32 where
  lower_le := Int32.le_toInt
  le_upper v := Int.le_sub_one_of_lt v.toInt_lt
  ofInt_toInt := Int32.ofInt_toInt

instance : Faithful Int64 where
  lower_le := Int64.le_toInt
  le_upper v := Int.le_sub_one_of_lt v.toInt_lt
  ofInt_toInt := Int64.ofInt_toInt

theorem narrowAs_toInt {α : Type} [FixedInteger α] [Faithful α] (kind : String) (v : α) :
    narrowAs kind α (toInt v) = .ok v := by
  rw [narrowAs, if_pos ⟨Faithful.lower_le v, Faithful.le_upper v⟩, Faithful.ofInt_toInt]

/-- An integer within the bounds of a type is that of a value. -/
class Exact (α : Type) [FixedInteger α] : Prop where
  toInt_ofInt {n : Int} (hlower : lower α ≤ n) (hupper : n ≤ upper α) : toInt (ofInt n : α) = n

instance : Exact Int8 where
  toInt_ofInt hlower hupper := Int8.toInt_ofInt_of_le hlower (Int.lt_of_le_sub_one hupper)

instance : Exact Int16 where
  toInt_ofInt hlower hupper := Int16.toInt_ofInt_of_le hlower (Int.lt_of_le_sub_one hupper)

instance : Exact Int32 where
  toInt_ofInt hlower hupper := Int32.toInt_ofInt_of_le hlower (Int.lt_of_le_sub_one hupper)

instance : Exact Int64 where
  toInt_ofInt hlower hupper := Int64.toInt_ofInt_of_le hlower (Int.lt_of_le_sub_one hupper)

instance : Exact UInt8 where
  toInt_ofInt {n} hlower hupper := by
    simp only [lower, upper, toInt, ofInt, UInt8.ofInt, UInt8.toNat_ofNat'] at *
    omega

instance : Exact UInt16 where
  toInt_ofInt {n} hlower hupper := by
    simp only [lower, upper, toInt, ofInt, UInt16.ofInt, UInt16.toNat_ofNat'] at *
    omega

instance : Exact UInt32 where
  toInt_ofInt {n} hlower hupper := by
    simp only [lower, upper, toInt, ofInt, UInt32.ofInt, UInt32.toNat_ofNat'] at *
    omega

instance : Exact UInt64 where
  toInt_ofInt {n} hlower hupper := by
    simp only [lower, upper, toInt, ofInt, UInt64.ofInt, UInt64.toNat_ofNat'] at *
    omega

/-- An integer is narrowed to the value that it is, or is out of range. -/
theorem narrowAs_outcome (α : Type) [FixedInteger α] [Exact α] (kind : String) (n : Int) :
    ((lower α ≤ n ∧ n ≤ upper α) ∧ ∃ v : α, narrowAs kind α n = .ok v ∧ toInt v = n) ∨
    ¬ (lower α ≤ n ∧ n ≤ upper α) ∧
      ∃ fault, narrowAs kind α n = .error fault ∧ fault.kind = .range := by
  by_cases h : lower α ≤ n ∧ n ≤ upper α
  · exact .inl ⟨h, ofInt n, if_pos h, Exact.toInt_ofInt h.1 h.2⟩
  · exact .inr ⟨h, _, if_neg h, rfl⟩

end FixedInteger

namespace Reader

open FixedWidth in
theorem takes_value {α : Type} [FixedWidth α] [Lawful α] (v : α) (rest : Bytes) :
    (value α).Takes (put v) rest v := by
  have h := (takes_exactly (put v) rest).bind_nil (f := fun bytes => lift (take α bytes))
    (takes_lift (take_put v) rest)
  rwa [length_put] at h

end Reader

end MinecraftWire
