import MinecraftWire.Proofs.Text.Field

/-! Latin-1 texts. The texts that can be written are those of characters from U+0001 to U+00FF, and
their forms are the byte strings that end at their first zero byte. The two belong together one to
one: a text is read back from its form, and what is read from a channel has just the bytes that were
taken as its form. -/

namespace MinecraftWire.Latin1

/-! ### Characters and bytes -/

def byte (c : Char) : UInt8 :=
  UInt8.ofNat c.toNat

def char (b : UInt8) : Char :=
  Char.ofNat b.toNat

/-- Whether each character of a text has a byte that is not zero. -/
def IsSingleByte (t : String) : Prop :=
  ∀ c ∈ t.toList, 0x01 ≤ c.toNat ∧ c.toNat ≤ 0xFF

theorem fits_iff {c : Char} : fits c ↔ 0x01 ≤ c.toNat ∧ c.toNat ≤ 0xFF := by
  simp [fits, Nat.succ_le_iff]

theorem toNat_char (b : UInt8) : (char b).toNat = b.toNat := by
  have hb := b.toNat_lt
  exact Utf8.val_ofNat (.inl (by omega))

theorem toNat_byte {c : Char} (h : c.toNat ≤ 0xFF) : (byte c).toNat = c.toNat := by
  rw [byte, UInt8.toNat_ofNat', Nat.mod_eq_of_lt (by omega)]

theorem char_byte {c : Char} (h : c.toNat ≤ 0xFF) : char (byte c) = c := by
  rw [char, toNat_byte h, Char.ofNat_toNat]

theorem byte_char (b : UInt8) : byte (char b) = b := by
  rw [byte, toNat_char, UInt8.ofNat_toNat]

theorem byte_ne_zero {c : Char} (h : 0x01 ≤ c.toNat ∧ c.toNat ≤ 0xFF) : byte c ≠ 0 := by
  intro hzero
  have := toNat_byte h.2
  rw [hzero] at this
  exact absurd this.symm (by simp; omega)

theorem fits_char {b : UInt8} (h : b ≠ 0) : 0x01 ≤ (char b).toNat ∧ (char b).toNat ≤ 0xFF := by
  rw [toNat_char]
  have hb := b.toNat_lt
  have hpos : b.toNat ≠ 0 := fun hzero => h (UInt8.toNat_inj.mp hzero)
  omega

/-! ### Writing -/

/-- The bytes of the characters and a zero byte. -/
def form (t : String) : Bytes :=
  t.toList.map byte ++ [0]

theorem encode_of_isSingleByte {t : String} (h : IsSingleByte t) : encode t = .ok (form t) := by
  have hnone : t.toList.find? (!fits ·) = none := by
    rw [List.find?_eq_none]
    intro c hc
    simpa using fits_iff.mpr (h c hc)
  rw [encode, hnone]
  rfl

/-- A text that cannot be written is refused for one of its characters. -/
theorem encode_of_not_isSingleByte {t : String} (h : ¬ IsSingleByte t) :
    ∃ c ∈ t.toList, ¬ (0x01 ≤ c.toNat ∧ c.toNat ≤ 0xFF) ∧
      encode t = .error (.range ⟨"single-byte character", .codePoint c.toNat, .codePoint 0x01,
        .codePoint 0xFF⟩) := by
  rcases hfind : t.toList.find? (!fits ·) with _ | c
  · rw [List.find?_eq_none] at hfind
    exact absurd (fun c hc => fits_iff.mp (by simpa using hfind c hc)) h
  · refine ⟨c, List.mem_of_find?_eq_some hfind, fun hfits => ?_, by rw [encode, hfind]⟩
    have := List.find?_some hfind
    rw [fits_iff.mpr hfits] at this
    contradiction

theorem encode_eq_ok_iff {t : String} {bytes : Bytes} :
    encode t = .ok bytes ↔ IsSingleByte t ∧ bytes = form t := by
  by_cases h : IsSingleByte t
  · rw [encode_of_isSingleByte h, Except.ok.injEq]
    exact ⟨fun hform => ⟨h, hform.symm⟩, fun hform => hform.2.symm⟩
  · obtain ⟨_, -, -, hfault⟩ := encode_of_not_isSingleByte h
    rw [hfault]
    exact iff_of_false (by simp) fun hform => h hform.1

/-- The text of bytes that are not zero. -/
theorem encode_ofList {front : Bytes} (h : 0 ∉ front) :
    encode (String.ofList (front.map char)) = .ok (front ++ [0]) := by
  refine encode_eq_ok_iff.mpr ⟨?_, ?_⟩
  · intro c hc
    rw [String.toList_ofList, List.mem_map] at hc
    obtain ⟨b, hb, rfl⟩ := hc
    exact fits_char fun hzero => h (hzero ▸ hb)
  · rw [form, String.toList_ofList, List.map_map]
    congr 1
    exact (List.map_id'' byte_char front).symm

/-! ### Reading -/

open Reader (latin1 latin1From)

/-- One byte off a channel: a zero byte ends the text, any other is a character of it. -/
theorem latin1From_cons (acc : List Char) {s : Source} {b : UInt8} {tail : Bytes}
    (hs : s.failing = false) (hp : s.pending = b :: tail) :
    ∃ s', s'.pending = tail ∧ s'.failing = false ∧
      latin1From acc s =
        if b = 0 then (.ok (String.ofList acc.reverse), s') else latin1From (char b :: acc) s' := by
  obtain ⟨s', hread, hp', hs'⟩ := Source.readFull_of_le (n := 1) (s := s) (by simp [hp])
  refine ⟨s', by simp [hp', hp], by rw [hs', hs], ?_⟩
  rw [Reader.latin1From_of_ok hread, hp]
  rfl

theorem takes_latin1From (acc : List Char) {front : Bytes} (h : 0 ∉ front) (rest : Bytes) :
    Reader.Takes (latin1From acc) (front ++ [0]) rest
      (String.ofList (acc.reverse ++ front.map char)) := by
  induction front generalizing acc with
  | nil =>
    intro s hs hp
    obtain ⟨s', hp', hs', hread⟩ := latin1From_cons acc hs hp
    rw [if_pos rfl] at hread
    exact ⟨s', by simpa using hread, hp', hs'⟩
  | cons b front ih =>
    intro s hs hp
    have hb : b ≠ 0 := fun hzero => h (by simp [hzero])
    obtain ⟨s', hp', hs', hread⟩ := latin1From_cons acc hs hp
    rw [if_neg hb] at hread
    obtain ⟨s'', hread', hp'', hs''⟩ :=
      ih (char b :: acc) (fun hmem => h (List.mem_cons_of_mem b hmem)) s' hs' hp'
    refine ⟨s'', ?_, hp'', hs''⟩
    rw [hread, hread']
    simp

/-- Without a zero byte the channel ends inside the text. -/
theorem latin1From_of_not_mem (acc : List Char) {s : Source} (hs : s.failing = false)
    (h : 0 ∉ s.pending) :
    ∃ s', latin1From acc s = (.error (.unexpectedEnd 1 []), s') ∧ s'.pending = [] := by
  generalize hp : s.pending = bytes at h
  induction bytes generalizing acc s with
  | nil =>
    obtain ⟨s', hread, hp'⟩ := Source.readFull_of_lt (n := 1) (s := s) (by simp [hp]) hs
    rw [hp] at hread
    exact ⟨s', Reader.latin1From_of_error hread, hp'⟩
  | cons b tail ih =>
    have hb : b ≠ 0 := fun hzero => h (by simp [hzero])
    obtain ⟨s', hp', hs', hread⟩ := latin1From_cons acc hs hp
    rw [if_neg hb] at hread
    rw [hread]
    exact ih (char b :: acc) hs' hp' fun hmem => h (List.mem_cons_of_mem b hmem)

theorem takes_latin1 {front : Bytes} (h : 0 ∉ front) (rest : Bytes) :
    latin1.Takes (front ++ [0]) rest (String.ofList (front.map char)) :=
  takes_latin1From [] h rest

/-- A text is read back from its form. -/
theorem takes_form {t : String} (h : IsSingleByte t) (rest : Bytes) :
    latin1.Takes (form t) rest t := by
  have hzero : 0 ∉ t.toList.map byte := by
    rw [List.mem_map]
    rintro ⟨c, hc, hzero⟩
    exact byte_ne_zero (h c hc) hzero
  have hchars : (t.toList.map byte).map char = t.toList := by
    rw [List.map_map]
    exact (List.map_congr_left fun c hc => char_byte (h c hc).2).trans (List.map_id _)
  have htakes := takes_latin1 hzero rest
  rwa [hchars, String.ofList_toList] at htakes

/-! ### Both ways -/

/-- How a text is written. The bytes of its form are the code points of its characters and a zero at
the end; a text that has no form is not written at all. -/
structure Written (t : String) : Prop where
  ok_iff : (∃ bytes, encode t = .ok bytes) ↔ IsSingleByte t
  code_points {bytes : Bytes} : encode t = .ok bytes →
    bytes.map UInt8.toNat = t.toList.map Char.toNat ++ [0]
  emit_of_ok {bytes : Bytes} : encode t = .ok bytes →
    ∀ sink : Sink, sink.emit [encode t] = sink.write bytes
  emit_of_refused : ¬ IsSingleByte t → ∃ c ∈ t.toList, ¬ (0x01 ≤ c.toNat ∧ c.toNat ≤ 0xFF) ∧
    ∀ sink : Sink, sink.emit [encode t] = (.error (.range ⟨"single-byte character",
      .codePoint c.toNat, .codePoint 0x01, .codePoint 0xFF⟩), sink)
  takes {bytes : Bytes} : encode t = .ok bytes → ∀ rest, latin1.Takes bytes rest t

theorem written (t : String) : Written t where
  ok_iff := by simp [encode_eq_ok_iff]
  code_points h := by
    obtain ⟨ht, rfl⟩ := encode_eq_ok_iff.mp h
    rw [form, List.map_append, List.map_map]
    congr 1
    exact List.map_congr_left fun c hc => toNat_byte (ht c hc).2
  emit_of_ok h sink := by rw [h, Sink.emit_ok]
  emit_of_refused h := by
    obtain ⟨c, hc, hfits, hfault⟩ := encode_of_not_isSingleByte h
    exact ⟨c, hc, hfits, fun sink => by rw [hfault, Sink.emit_error]⟩
  takes h rest := by
    obtain ⟨ht, rfl⟩ := encode_eq_ok_iff.mp h
    exact takes_form ht rest

/-- How a channel is read. The text ends at the first zero byte and its form is what was taken; if
there is none, all bytes are taken and the text has no end. -/
structure ReadFrom (s : Source) : Prop where
  of_zero : 0 ∈ s.pending → ∃ t s', latin1 s = (.ok t, s') ∧
    encode t = .ok (s.pending.take (s.pending.idxOf 0 + 1)) ∧
    s'.pending = s.pending.drop (s.pending.idxOf 0 + 1)
  of_no_zero : 0 ∉ s.pending →
    ∃ s', latin1 s = (.error (.unexpectedEnd 1 []), s') ∧ s'.pending = []

/-- The bytes up to the first zero byte. -/
theorem split_at_zero {bytes : Bytes} (h : 0 ∈ bytes) :
    0 ∉ bytes.take (bytes.idxOf 0) ∧
      bytes.take (bytes.idxOf 0 + 1) = bytes.take (bytes.idxOf 0) ++ [0] := by
  have hlt := List.idxOf_lt_length_of_mem h
  refine ⟨fun hmem => ?_, ?_⟩
  · obtain ⟨i, hi, hzero⟩ := List.mem_take_iff_getElem.mp hmem
    have hbefore : i < bytes.findIdx (· == 0) := Nat.lt_of_lt_of_le hi (Nat.min_le_left _ _)
    simpa [hzero] using List.not_of_lt_findIdx hbefore
  · rw [List.take_succ_eq_append_getElem hlt, List.getElem_idxOf]

theorem readFrom {s : Source} (hs : s.failing = false) : ReadFrom s where
  of_zero h := by
    obtain ⟨hfront, htaken⟩ := split_at_zero h
    obtain ⟨s', hread, hp, -⟩ := takes_latin1 hfront (s.pending.drop (s.pending.idxOf 0 + 1)) s hs
      (by rw [← htaken, List.take_append_drop])
    exact ⟨_, s', hread, by rw [encode_ofList hfront, htaken], hp⟩
  of_no_zero := latin1From_of_not_mem [] hs

/-- Texts of characters from U+0001 to U+00FF and byte strings that end at their first zero byte
stand for each other, whatever follows on the channel and in whatever pieces it comes. -/
theorem written_and_read_one_to_one (t : String) (pending : Bytes) (grant : Nat → Nat)
    (calls : Nat) : Written t ∧ ReadFrom ⟨pending, false, grant, calls⟩ :=
  ⟨written t, readFrom rfl⟩

end MinecraftWire.Latin1
