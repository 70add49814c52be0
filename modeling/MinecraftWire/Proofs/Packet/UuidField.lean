import Mathlib.Data.Bool.AllAny
import Mathlib.Data.Nat.Digits.Lemmas
import MinecraftWire.Proofs.Packet.Decoded
import MinecraftWire.Proofs.Text.Prefixed

/-! The UUID of a login success before its binary form. It is written as five groups of lower-case
digits. A text is read as a UUID if 32 digits of base 16 are left of it without its hyphens, or 31
behind a plus sign, and the UUID is the number they spell; every other text is malformed. -/

namespace MinecraftWire

namespace Hex

/-! ### Digits in either case -/

def lowerChars : List Char := "0123456789abcdef".toList

def digitChars : List Char := "0123456789abcdefABCDEF".toList

/-- The place of a digit among the lower-case ones. -/
def digitValue (c : Char) : Nat := lowerChars.idxOf c.toLower

/-- The number spelt by the digits of base 16, most significant first. -/
def number (cs : List Char) : Nat := Nat.ofDigits 16 (cs.map digitValue).reverse

theorem number_cons (c : Char) (cs : List Char) :
    number (c :: cs) = 16 ^ cs.length * digitValue c + number cs := by
  rw [number, List.map_cons, Nat.ofDigits_reverse_cons, List.length_map, Nat.add_comm]
  rfl

theorem digitValue_lt {c : Char} (hc : c ∈ digitChars) : digitValue c < 16 :=
  List.all_iff_forall_prop.mp (by decide : digitChars.all fun c => digitValue c < 16) c hc

theorem number_lt {cs : List Char} (hcs : ∀ c ∈ cs, c ∈ digitChars) :
    number cs < 16 ^ cs.length := by
  have h := Nat.ofDigits_lt_base_pow_length (b := 16) (l := (cs.map digitValue).reverse) (by omega)
    fun d hd => by
      obtain ⟨c, hc, rfl⟩ := List.mem_map.mp (List.mem_reverse.mp hd)
      exact digitValue_lt (hcs c hc)
  rwa [List.length_reverse, List.length_map] at h

theorem value?_of_mem {c : Char} (hc : c ∈ digitChars) : value? c = some (digitValue c) :=
  List.all_iff_forall_prop.mp
    (by decide : digitChars.all fun c => value? c = some (digitValue c)) c hc

/-- Between the bounds of a range of characters there are no others. -/
theorem mem_digitChars_of_value? {c : Char} {d : Nat} (h : value? c = some d) : c ∈ digitChars := by
  have hrange : '0' ≤ c ∧ c ≤ '9' ∨ 'a' ≤ c ∧ c ≤ 'f' ∨ 'A' ≤ c ∧ c ≤ 'F' := by
    unfold value? at h
    split at h
    · exact .inl ‹_›
    · split at h
      · exact .inr (.inl ‹_›)
      · split at h
        · exact .inr (.inr ‹_›)
        · contradiction
  obtain ⟨k, hk, rfl⟩ : ∃ k, (48 ≤ k ∧ k ≤ 57 ∨ 97 ≤ k ∧ k ≤ 102 ∨ 65 ≤ k ∧ k ≤ 70) ∧
      c = Char.ofNat k := by
    refine ⟨c.toNat, ?_, (Char.ofNat_toNat c).symm⟩
    simp only [Char.le_def, UInt32.le_iff_toNat_le] at hrange
    exact hrange
  rcases hk with ⟨hlow, hhigh⟩ | ⟨hlow, hhigh⟩ | ⟨hlow, hhigh⟩ <;> interval_cases k <;> decide

/-- Digits are read to the last one, and nothing else is. -/
theorem readFrom_eq_some_iff {acc n : Nat} {cs : List Char} : readFrom acc cs = some n ↔
    (∀ c ∈ cs, c ∈ digitChars) ∧ n = 16 ^ cs.length * acc + number cs := by
  induction cs generalizing acc with
  | nil => simp [readFrom, number, eq_comm]
  | cons c cs ih =>
    rw [readFrom, List.forall_mem_cons]
    rcases hc : value? c with _ | d
    · have hdigit : c ∉ digitChars := fun hmem => by simp [value?_of_mem hmem] at hc
      simp [hdigit]
    · have hdigit := mem_digitChars_of_value? hc
      obtain rfl : digitValue c = d := Option.some.inj ((value?_of_mem hdigit).symm.trans hc)
      have hvalue : 16 ^ cs.length * (16 * acc + digitValue c) + number cs =
          16 ^ (c :: cs).length * acc + number (c :: cs) := by
        rw [number_cons, List.length_cons]
        ring
      simp only [ih, hvalue, hdigit, true_and]

end Hex

namespace UuidText

open Hex (digitChars lowerChars number number_lt)

/-! ### Texts that are read as UUIDs -/

/-- A text without its hyphens. -/
def bare (t : String) : List Char := t.toList.filter (· ≠ '-')

/-- So many digits of base 16, which spell the UUID. -/
structure Spell (count : Nat) (cs : List Char) (u : Uuid) : Prop where
  length : cs.length = count
  digit : ∀ c ∈ cs, c ∈ digitChars
  value : number cs = u.toNat

/-- The text is read as the UUID: hyphens may stand anywhere, and a plus sign in the place of the
first digit. -/
def Means (t : String) (u : Uuid) : Prop :=
  Spell 32 (bare t) u ∨ ∃ cs, bare t = '+' :: cs ∧ Spell 31 cs u

theorem size_of_mem {c : Char} (hc : c ∈ digitChars) : c.utf8Size = 1 :=
  List.all_iff_forall_prop.mp (by decide : digitChars.all fun c => c.utf8Size = 1) c hc

theorem sum_size {cs : List Char} (hcs : ∀ c ∈ cs, c ∈ digitChars) :
    (cs.map Char.utf8Size).sum = cs.length := by
  rw [List.map_congr_left fun c hc => size_of_mem (hcs c hc), List.map_const',
    List.sum_replicate_nat, Nat.mul_one]

/-- No more digits than a UUID has spell one. -/
theorem spell_iff {count : Nat} {cs : List Char} {u : Uuid} (hcount : count ≤ 32)
    (hdigits : ∀ c ∈ cs, c ∈ digitChars) :
    Spell count cs u ↔ cs.length = count ∧ BitVec.ofNat 128 (number cs) = u := by
  have hlt : cs.length = count → number cs < 2 ^ 128 := fun hlength =>
    calc number cs < 16 ^ cs.length := number_lt hdigits
      _ ≤ 16 ^ 32 := Nat.pow_le_pow_right (by omega) (hlength.trans_le hcount)
      _ = 2 ^ 128 := by decide
  constructor
  · rintro ⟨hlength, -, hvalue⟩
    exact ⟨hlength, by rw [hvalue, BitVec.ofNat_toNat, BitVec.setWidth_eq]⟩
  · rintro ⟨hlength, rfl⟩
    exact ⟨hlength, hdigits, (BitVec.toNat_ofNat _ _ ▸ Nat.mod_eq_of_lt (hlt hlength)).symm⟩

theorem hex?_eq_some_iff {cs : List Char} {n : Nat} : hex? cs = some n ↔
    ((∀ c ∈ cs, c ∈ digitChars) ∧ n = number cs) ∨
      ∃ ds, cs = '+' :: ds ∧ (∀ c ∈ ds, c ∈ digitChars) ∧ n = number ds := by
  have hplus : '+' ∉ digitChars := by decide
  unfold hex?
  split
  · rename_i ds
    simp [Hex.readFrom_eq_some_iff, hplus]
  · rename_i hne
    simp only [Hex.readFrom_eq_some_iff, Nat.mul_zero, Nat.zero_add]
    exact ⟨.inl, fun h => h.elim id fun ⟨ds, hcs, _⟩ => absurd hcs (hne ds)⟩

theorem parse_eq (t : String) : parse t = if ((bare t).map Char.utf8Size).sum = 32 then
    (hex? (bare t)).elim (.error (.format (.uuid t))) fun n => .ok (BitVec.ofNat 128 n)
      else .error (.format (.uuid t)) := by
  unfold parse bare
  dsimp only
  congr 1
  cases hex? _ <;> rfl

theorem parse_eq_ok_iff {t : String} {u : Uuid} : parse t = .ok u ↔ Means t u := by
  have hparse : parse t = .ok u ↔ ((bare t).map Char.utf8Size).sum = 32 ∧
      ∃ n, hex? (bare t) = some n ∧ BitVec.ofNat 128 n = u := by
    rw [parse_eq]
    split
    · rename_i hsize
      rcases hex? (bare t) with _ | n <;> simp [hsize]
    · rename_i hsize
      simp [hsize]
  rw [hparse]
  constructor
  · rintro ⟨hsize, n, hn, rfl⟩
    rcases hex?_eq_some_iff.mp hn with ⟨hdigits, rfl⟩ | ⟨ds, hds, hdigits, rfl⟩
    · rw [sum_size hdigits] at hsize
      exact .inl ((spell_iff (by omega) hdigits).mpr ⟨hsize, rfl⟩)
    · rw [hds, List.map_cons, List.sum_cons, sum_size hdigits] at hsize
      have hlength : ds.length = 31 := Nat.add_left_cancel (n := 1) hsize
      exact .inr ⟨ds, hds, (spell_iff (by omega) hdigits).mpr ⟨hlength, rfl⟩⟩
  · rintro (h | ⟨ds, hds, h⟩)
    · obtain ⟨hlength, hvalue⟩ := (spell_iff (by omega) h.digit).mp h
      refine ⟨?_, _, hex?_eq_some_iff.mpr (.inl ⟨h.digit, rfl⟩), hvalue⟩
      rw [sum_size h.digit, hlength]
    · obtain ⟨hlength, hvalue⟩ := (spell_iff (by omega) h.digit).mp h
      refine ⟨?_, _, hex?_eq_some_iff.mpr (.inr ⟨ds, hds, h.digit, rfl⟩), hvalue⟩
      rw [hds, List.map_cons, List.sum_cons, sum_size h.digit, hlength]
      rfl

theorem parse_eq_error {t : String} (h : ∀ u, ¬ Means t u) :
    parse t = .error (.format (.uuid t)) := by
  rcases hparse : parse t with fault | u
  · rw [parse_eq] at hparse
    split at hparse
    · rcases hhex : hex? (bare t) with _ | n <;> rw [hhex] at hparse
      · exact hparse.symm
      · contradiction
    · exact hparse.symm
  · exact absurd (parse_eq_ok_iff.mp hparse) (h u)

/-! ### The text that is written -/

/-- Five groups of lower-case digits with hyphens between them, which together spell the UUID. -/
def Grouped (t : String) (u : Uuid) : Prop :=
  ∃ a b c d e : List Char,
    t.toList = a ++ '-' :: b ++ '-' :: c ++ '-' :: d ++ '-' :: e ∧
      a.length = 8 ∧ b.length = 4 ∧ c.length = 4 ∧ d.length = 4 ∧ e.length = 12 ∧
      (∀ x ∈ a ++ b ++ c ++ d ++ e, x ∈ lowerChars) ∧ number (a ++ b ++ c ++ d ++ e) = u.toNat

theorem grouped_format (u : Uuid) : Grouped (format u) u := by
  have hlength := length_digits u
  have hgroups := append_groups (digits u)
  have hlower : ∀ x ∈ digits u, x ∈ lowerChars := fun x hx => by
    obtain ⟨d, hd, rfl⟩ := Hex.exists_digit_of_mem_padded hx
    interval_cases d <;> decide
  have hread : Hex.readFrom 0 (digits u) = some u.toNat := Hex.readFrom_padded 32 u.toNat
  obtain ⟨-, hvalue⟩ := Hex.readFrom_eq_some_iff.mp hread
  refine ⟨_, _, _, _, _, by rw [format, String.toList_ofList], by simp [hlength],
    by simp [hlength], by simp [hlength], by simp [hlength], by simp [hlength],
    hgroups.symm ▸ hlower, ?_⟩
  rw [hgroups, hvalue, Nat.mul_zero, Nat.zero_add]

/-! ### The field of a login success -/

open Text (IsField takes_of_isField isField_written)
open Packet (maxUuidText maxUsername)

section

variable {v : Version} {t name : String} {field nameField : Bytes} {u : Uuid}

/-- Before version 735 the UUID is a text, and there is no profile. -/
theorem layout_of_lt (hv : v.number < 735) : v.hasBinaryUuid = false ∧ v.hasProperties = false := by
  simp only [Version.hasBinaryUuid, Version.hasProperties, decide_eq_false_iff_not]
  omega

theorem takes_loginSuccess (hv : v.number < 735) (ht : IsField maxUuidText field t)
    (hname : IsField maxUsername nameField name) (hmeans : Means t u) (rest : Bytes) :
    (PacketKind.loginSuccess.body v).Takes (field ++ nameField) rest
      (.loginSuccess ⟨u, name, []⟩) := by
  obtain ⟨hbinary, hproperties⟩ := layout_of_lt hv
  refine Reader.Takes.map ?_ _
  unfold Reader.loginSuccess
  simp only [hbinary, hproperties, Bool.false_eq_true, if_false]
  refine (takes_of_isField ht _).bind (Reader.Takes.lift_bind (parse_eq_ok_iff.mpr hmeans) ?_)
  exact (takes_of_isField hname _).bind_nil (Reader.takes_pure _ _)

theorem refuses_loginSuccess (hv : v.number < 735) (ht : IsField maxUuidText field t)
    (hmeans : ∀ u, ¬ Means t u) (behind : Bytes) :
    (PacketKind.loginSuccess.body v).run (field ++ behind) =
      (.error (.format (.uuid t)), behind) := by
  obtain ⟨hbinary, -⟩ := layout_of_lt hv
  obtain ⟨s', hread, hrest, -⟩ := takes_of_isField ht behind (.ofBytes (field ++ behind)) rfl rfl
  have hbody : Reader.loginSuccess v (.ofBytes (field ++ behind)) =
      (.error (.format (.uuid t)), s') := by
    unfold Reader.loginSuccess
    simp only [hbinary, Bool.false_eq_true, if_false]
    rw [Reader.bind_of_ok hread, parse_eq_error hmeans]
    rfl
  have hpacket : PacketKind.loginSuccess.body v (.ofBytes (field ++ behind)) =
      (.error (.format (.uuid t)), s') := Reader.bind_of_error hbody
  rw [Reader.run, hpacket, ← hrest]

end

/-- How a version writes the UUID of a login success: as a text of 36 characters in five groups,
before the name, and the UUID is read back from it. -/
structure Written (v : Version) (u : Uuid) : Prop where
  length : (format u).length = 36
  grouped : Grouped (format u) u
  pieces : ∀ name properties, (Packet.loginSuccess ⟨u, name, properties⟩).pieces v =
    [.ok (Text.written (format u)), Text.encode maxUsername name]
  takes : ∀ name properties form, (Packet.loginSuccess ⟨u, name, properties⟩).body v = .ok form →
    ∀ rest, (PacketKind.loginSuccess.body v).Takes form rest (.loginSuccess ⟨u, name, []⟩)

/-- How a version reads a text in the place of the UUID of a login success: as the UUID that the
text means, or as malformed before anything behind it is read. -/
structure ReadFrom (v : Version) (field : Bytes) (t : String) : Prop where
  takes_iff : ∀ nameField name, IsField maxUsername nameField name → ∀ rest u,
    (PacketKind.loginSuccess.body v).Takes (field ++ nameField) rest
      (.loginSuccess ⟨u, name, []⟩) ↔ Means t u
  refuses : (∀ u, ¬ Means t u) → ∀ behind, (PacketKind.loginSuccess.body v).run (field ++ behind) =
    (.error (.format (.uuid t)), behind)

theorem writes {v : Version} (hv : v.number < 735) (u : Uuid) : Written v u where
  length := length_format u
  grouped := grouped_format u
  pieces name properties := by
    obtain ⟨hbinary, hproperties⟩ := layout_of_lt hv
    have hform : Text.encode maxUuidText (format u) = .ok (Text.written (format u)) :=
      if_pos (length_format u).le
    simp [Packet.pieces, hbinary, hproperties, hform]
  takes name properties form hform rest := by
    have h := Packet.reads_body v (.loginSuccess ⟨u, name, properties⟩) rest False.elim form hform
    rwa [Packet.erase, (layout_of_lt hv).2] at h

theorem reads {v : Version} {field : Bytes} {t : String} (hv : v.number < 735)
    (ht : IsField maxUuidText field t) : ReadFrom v field t where
  takes_iff nameField name hname rest u := by
    refine ⟨fun h => ?_, fun h => takes_loginSuccess hv ht hname h rest⟩
    by_cases hmeans : ∃ u', Means t u'
    · obtain ⟨u', hu'⟩ := hmeans
      have hread := h.run.symm.trans (takes_loginSuccess hv ht hname hu' rest).run
      obtain rfl : u = u' := by simpa using hread
      exact hu'
    · have hread := h.run
      rw [List.append_assoc, refuses_loginSuccess hv ht (not_exists.mp hmeans)] at hread
      simp at hread
  refuses hmeans behind := refuses_loginSuccess hv ht hmeans behind

/-- Before version 735 the UUID of a login success is written as 36 characters in groups of 8, 4, 4,
4 and 12 lower-case digits and read back from them. A text of at most 36 characters, behind any
accepted form of its length, is read as a UUID exactly if 32 digits of base 16 are left of it
without its hyphens, or 31 behind a plus sign, which spell the UUID; every other is malformed. -/
theorem carried_as_text {v : Version} (hv : v.number < 735) :
    (∀ u, Written v u) ∧ ∀ field t, IsField maxUuidText field t → ReadFrom v field t :=
  ⟨writes hv, fun _ _ ht => reads hv ht⟩

/-- Digits in both cases with one hyphen among them, and a text that is no UUID. -/
theorem carried_as_text_one_hyphen :
    (734 : Int) < 735 ∧ IsField maxUuidText (Text.written "0123456789ABCDEF-fedcba9876543210")
        "0123456789ABCDEF-fedcba9876543210" ∧
      (PacketKind.loginSuccess.body ⟨734⟩).Takes
        (Text.written "0123456789ABCDEF-fedcba9876543210" ++ Text.written "a") [7]
        (.loginSuccess ⟨0x0123456789ABCDEFFEDCBA9876543210, "a", []⟩) ∧
      (PacketKind.loginSuccess.body ⟨734⟩).run (Text.written "0123" ++ [7]) =
        (.error (.format (.uuid "0123")), [7]) := by
  have hfield : IsField maxUuidText (Text.written "0123456789ABCDEF-fedcba9876543210") _ :=
    isField_written (by decide +kernel) (by decide)
  have hname : IsField maxUsername (Text.written "a") "a" := isField_written (by decide) (by decide)
  have hshort : IsField maxUuidText (Text.written "0123") "0123" :=
    isField_written (by decide) (by decide)
  have hread := (carried_as_text (v := ⟨734⟩) (by decide)).2
  refine ⟨by decide, hfield, ?_, (hread _ _ hshort).refuses (fun u hu => ?_) [7]⟩
  · exact ((hread _ _ hfield).takes_iff _ _ hname _ _).mpr
      (.inl ⟨by decide +kernel, List.all_iff_forall_prop.mp (by decide +kernel), by decide +kernel⟩)
  · rcases hu with h | ⟨ds, hds, -⟩
    · exact absurd h.length (by decide)
    · exact absurd (congrArg List.head? hds) (by simp [bare])

/-- A plus sign and 31 digits are read as a UUID, though they are no 32 digits. -/
theorem plusSign_for_first_digit :
    (PacketKind.loginSuccess.body ⟨47⟩).run
        (0x20 :: Utf8.encode "+123456789abcdef0123456789abcdef" ++ [0x01, 0x61]) =
        (.ok (.loginSuccess ⟨0x0123456789ABCDEF0123456789ABCDEF, "a", []⟩), []) ∧
      ∀ u, ¬ Spell 32 (bare "+123456789abcdef0123456789abcdef") u := by
  have hfield : IsField maxUuidText (Text.written "+123456789abcdef0123456789abcdef") _ :=
    isField_written (by decide +kernel) (by decide)
  have hname : IsField maxUsername (Text.written "a") "a" := isField_written (by decide) (by decide)
  have htext : Text.written "+123456789abcdef0123456789abcdef" =
      0x20 :: Utf8.encode "+123456789abcdef0123456789abcdef" := by
    rw [Text.written, VarInt.ofLength, VarInt.encode, VarInt.ofNat, if_pos (by decide +kernel)]
    rfl
  have hletter : Text.written "a" = [0x01, 0x61] := by
    rw [Text.written, VarInt.ofLength, VarInt.encode, VarInt.ofNat, if_pos (by decide)]
    rfl
  have hmeans : Means "+123456789abcdef0123456789abcdef" 0x0123456789ABCDEF0123456789ABCDEF :=
    .inr ⟨"123456789abcdef0123456789abcdef".toList, by decide +kernel, by decide +kernel,
      List.all_iff_forall_prop.mp (by decide +kernel), by decide +kernel⟩
  have htakes := takes_loginSuccess (v := ⟨47⟩) (by decide) hfield hname hmeans []
  rw [htext, hletter] at htakes
  exact ⟨htakes.run_all, fun u hu => absurd (hu.digit '+' (by decide +kernel)) (by decide)⟩

end UuidText

end MinecraftWire
