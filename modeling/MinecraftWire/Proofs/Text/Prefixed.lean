import MinecraftWire.Proofs.Text.Field
import MinecraftWire.Proofs.Text.Malformed
import MinecraftWire.Proofs.VarInt.Form

/-! Texts behind their length. A byte string begins with a text, is refused, or ends too early, and
which of the three it is can be told from its form alone: the accepted forms of a length, the two
limits of a field and the malformed sequences of UTF-8. A reader answers accordingly, and what is
written is read back under every limit that leaves room for its characters. -/

namespace MinecraftWire.Text

open VarInt (Announces Form Kind Width announces_ofLength)

/-! ### Fields -/

/-- A text of at most `limit` characters behind its length in bytes. -/
structure IsField (limit : Nat) (field : Bytes) (t : String) : Prop where
  announced : ∃ form, Announces form t.utf8ByteSize ∧ field = form ++ Utf8.encode t
  fits : t.length ≤ limit

/-- What no text begins with, however it goes on. -/
inductive Refused (limit : Nat) : Bytes → Prop
  /-- The length has no accepted form. -/
  | length {bytes : Bytes} (hfinished : ¬ Width.int32.Unfinished bytes)
    (hforms : ∀ form rest, bytes = form ++ rest → ¬ Form 5 0x0F form) : Refused limit bytes
  | negative {form : Bytes} {n : Int} (h : Announces form n) (hn : n < 0) (rest : Bytes) :
    Refused limit (form ++ rest)
  | tooLong {form : Bytes} {n : Nat} (h : Announces form n) (hn : 4 * limit < n) (rest : Bytes) :
    Refused limit (form ++ rest)
  | malformed {form tail : Bytes} {front : String}
    (h : Announces form (Utf8.encode front ++ tail).length)
    (hn : (Utf8.encode front ++ tail).length ≤ 4 * limit) (htail : Utf8.Malformed tail)
    (rest : Bytes) : Refused limit (form ++ (Utf8.encode front ++ tail ++ rest))
  | characters {form : Bytes} {t : String} (h : Announces form t.utf8ByteSize)
    (hn : t.utf8ByteSize ≤ 4 * limit) (ht : limit < t.length) (rest : Bytes) :
    Refused limit (form ++ (Utf8.encode t ++ rest))

/-- What ends inside a length, or before the last of the announced bytes. -/
inductive CutOff (limit : Nat) : Bytes → Prop
  | length {bytes : Bytes} (h : Width.int32.Unfinished bytes) : CutOff limit bytes
  | text {form rest : Bytes} {n : Nat} (h : Announces form n) (hn : n ≤ 4 * limit)
    (hrest : rest.length < n) : CutOff limit (form ++ rest)

variable {limit : Nat} {form field rest : Bytes} {n : Nat} {v : Int32} {t : String} {s : Source}

/-- Every byte string begins with a text, is refused, or ends too early. -/
theorem exists_field_or_refused_or_cutOff (limit : Nat) (bytes : Bytes) :
    (∃ field rest t, bytes = field ++ rest ∧ IsField limit field t) ∨ Refused limit bytes ∨
      CutOff limit bytes := by
  by_cases hcut : Width.int32.Unfinished bytes
  · exact .inr (.inr (.length hcut))
  by_cases hlength : ∃ form rest, bytes = form ++ rest ∧ Form 5 0x0F form
  · obtain ⟨form, rest, rfl, hform⟩ := hlength
    obtain ⟨n, hlength⟩ : ∃ n, Announces form n := ⟨_, _, Kind.isForm_iff.mpr ⟨hform, rfl⟩, rfl⟩
    by_cases hneg : n < 0
    · exact .inr (.inl (.negative hlength hneg rest))
    obtain ⟨n, rfl⟩ := Int.eq_ofNat_of_zero_le (Int.not_lt.mp hneg)
    by_cases hlong : 4 * limit < n
    · exact .inr (.inl (.tooLong hlength hlong rest))
    by_cases hcut : rest.length < n
    · exact .inr (.inr (.text hlength (by omega) hcut))
    -- the announced bytes are there
    obtain ⟨front, behind, rfl, rfl⟩ : ∃ front behind, rest = front ++ behind ∧ front.length = n :=
      ⟨rest.take n, rest.drop n, (List.take_append_drop n rest).symm, by simp; omega⟩
    rcases hdecode : Utf8.decode front with fault | t
    · obtain ⟨text, tail, rfl, htail⟩ := Utf8.decode_eq_error_iff.mp ⟨fault, hdecode⟩
      exact .inr (.inl (.malformed hlength (by omega) htail behind))
    obtain rfl := Utf8.decode_eq_ok_iff.mp hdecode
    rw [Utf8.length_encode] at hlength hlong
    by_cases ht : t.length ≤ limit
    · have hfield : IsField limit (form ++ Utf8.encode t) t := ⟨⟨form, hlength, rfl⟩, ht⟩
      exact .inl ⟨_, behind, t, by rw [List.append_assoc], hfield⟩
    · exact .inr (.inl (.characters hlength (by omega) (by omega) behind))
  · exact .inr (.inl (.length hcut fun form rest hp hform => hlength ⟨form, rest, hp, hform⟩))

/-! ### Reading -/

theorem checkLength_of_toInt (hv : v.toInt = n) (hn : n ≤ 4 * limit) :
    checkLength limit v = .ok n := by
  rw [checkLength, if_neg (by rw [Int32.lt_iff_toInt_lt, hv]; simp), hv, Int.toNat_natCast,
    if_neg (by omega)]

/-- The announced bytes behind a length. -/
theorem takes_announced (h : Announces form n) (hn : n ≤ 4 * limit) (hs : s.failing = false)
    (hp : s.pending = form ++ rest) :
    ∃ s₁, s₁.pending = rest ∧ s₁.failing = false ∧ Reader.text limit s =
      (Reader.exactly n >>= fun bytes => Reader.lift (decode limit bytes)) s₁ := by
  obtain ⟨v, hv, hint⟩ := h
  obtain ⟨s₁, hread, hp₁, hs₁⟩ := Kind.takes hv rest s hs hp
  refine ⟨s₁, hp₁, hs₁, ?_⟩
  have hread : Reader.varInt s = (.ok v, s₁) := hread
  rw [Reader.text, Reader.bind_of_ok hread, checkLength_of_toInt hint hn]
  rfl

theorem takes_of_isField (h : IsField limit field t) (rest : Bytes) :
    (Reader.text limit).Takes field rest t := by
  obtain ⟨⟨form, hlength, rfl⟩, hfits⟩ := h
  intro s hs hp
  have hsize := Utf8.utf8ByteSize_le t
  rw [List.append_assoc] at hp
  have hn : t.utf8ByteSize ≤ 4 * limit := by omega
  obtain ⟨s₁, hp₁, hs₁, hread⟩ := takes_announced hlength hn hs hp
  have hdecode : decode limit (Utf8.encode t) = .ok t := by
    rw [decode, Utf8.decode_encode]
    exact if_pos hfits
  obtain ⟨s₂, hexactly, hp₂, hs₂⟩ := Reader.takes_exactly (Utf8.encode t) rest s₁ hs₁ hp₁
  rw [Utf8.length_encode] at hexactly
  refine ⟨s₂, ?_, hp₂, hs₂⟩
  rw [hread, Reader.bind_of_ok hexactly, hdecode]
  rfl

theorem format_of_decode {bytes : Bytes} {cause : Malformation} (h : Announces form bytes.length)
    (hn : bytes.length ≤ 4 * limit) (hdecode : decode limit bytes = .error (.format cause))
    (hs : s.failing = false) (hp : s.pending = form ++ (bytes ++ rest)) :
    ∃ cause s', Reader.text limit s = (.error (.format cause), s') := by
  obtain ⟨s₁, hp₁, hs₁, hread⟩ := takes_announced h hn hs hp
  obtain ⟨s₂, hexactly, -⟩ := Reader.takes_exactly bytes rest s₁ hs₁ hp₁
  refine ⟨cause, s₂, ?_⟩
  rw [hread, Reader.bind_of_ok hexactly, hdecode]
  rfl

theorem format_of_refused (h : Refused limit s.pending) (hs : s.failing = false) :
    ∃ cause s', Reader.text limit s = (.error (.format cause), s') := by
  generalize hp : s.pending = bytes at h
  cases h with
  | length hfinished hforms =>
    rw [← hp] at hfinished hforms
    obtain ⟨-, cause, s', hread, -⟩ := (Kind.int32.readFrom hs).refused hfinished hforms
    exact ⟨_, s', Reader.bind_of_error hread⟩
  | negative h hn rest =>
    obtain ⟨v, hv, rfl⟩ := h
    obtain ⟨s₁, hread, -⟩ := Kind.takes hv rest s hs hp
    have hread : Reader.varInt s = (.ok v, s₁) := hread
    refine ⟨.negativeLength "string" v.toInt, s₁, ?_⟩
    rw [Reader.text, Reader.bind_of_ok hread, checkLength, if_pos (Int32.lt_iff_toInt_lt.mpr hn)]
    rfl
  | @tooLong form n h hn rest =>
    obtain ⟨v, hv, hint⟩ := h
    obtain ⟨s₁, hread, -⟩ := Kind.takes hv rest s hs hp
    have hread : Reader.varInt s = (.ok v, s₁) := hread
    refine ⟨.textBytes n (4 * limit), s₁, ?_⟩
    rw [Reader.text, Reader.bind_of_ok hread, checkLength,
      if_neg (by rw [Int32.lt_iff_toInt_lt, hint]; simp), hint, Int.toNat_natCast, if_pos hn]
    rfl
  | @malformed form tail front h hn htail rest =>
    obtain ⟨fault, hdecode⟩ := Utf8.decode_eq_error_iff.mpr ⟨front, tail, rfl, htail⟩
    have hcause : decode limit (Utf8.encode front ++ tail) = .error (.format (.utf8 fault)) := by
      rw [decode, hdecode]
    exact format_of_decode h hn hcause hs hp
  | @characters form t h hn ht rest =>
    rw [← Utf8.length_encode] at h hn
    have hcause : decode limit (Utf8.encode t) =
        .error (.format (.textCharacters t.length limit)) := by
      rw [decode, Utf8.decode_encode]
      exact if_neg (by omega)
    exact format_of_decode h hn hcause hs hp

theorem unexpectedEnd_of_cutOff (h : CutOff limit s.pending) (hs : s.failing = false) :
    ∃ wanted got s', Reader.text limit s = (.error (.unexpectedEnd wanted got), s') := by
  generalize hp : s.pending = bytes at h
  cases h with
  | length h =>
    rw [← hp] at h
    obtain ⟨s', hread, -⟩ := (Kind.int32.readFrom hs).unfinished h
    exact ⟨_, _, s', Reader.bind_of_error hread⟩
  | text h hn hrest =>
    obtain ⟨s₁, hp₁, hs₁, hread⟩ := takes_announced h hn hs hp
    obtain ⟨s₂, hfull, -⟩ := Source.readFull_of_lt (by rwa [hp₁]) hs₁
    exact ⟨_, _, s₂, hread.trans (Reader.bind_of_error hfull)⟩

/-- What a reader makes of a channel is told by what the channel holds. -/
theorem text_cases (limit : Nat) (hs : s.failing = false) :
    (∃ field t s', s.pending = field ++ s'.pending ∧ IsField limit field t ∧
      Reader.text limit s = (.ok t, s')) ∨
    (Refused limit s.pending ∧ ∃ cause s', Reader.text limit s = (.error (.format cause), s')) ∨
    (CutOff limit s.pending ∧ ∃ wanted got s',
      Reader.text limit s = (.error (.unexpectedEnd wanted got), s')) := by
  rcases exists_field_or_refused_or_cutOff limit s.pending with ⟨field, rest, t, hp, ht⟩ | h | h
  · obtain ⟨s', hread, rfl, -⟩ := takes_of_isField ht rest s hs hp
    exact .inl ⟨field, t, s', hp, ht, hread⟩
  · exact .inr (.inl ⟨h, format_of_refused h hs⟩)
  · exact .inr (.inr ⟨h, unexpectedEnd_of_cutOff h hs⟩)

/-- How a channel is read: a text comes out exactly where a field stands at the front, and what is
left is what stands behind it. -/
structure ReadFrom (limit : Nat) (s : Source) : Prop where
  ok_iff : ∀ t rest, (∃ s', Reader.text limit s = (.ok t, s') ∧ s'.pending = rest) ↔
    ∃ field, s.pending = field ++ rest ∧ IsField limit field t
  format_iff : (∃ cause s', Reader.text limit s = (.error (.format cause), s')) ↔
    Refused limit s.pending
  unexpectedEnd_iff : (∃ wanted got s',
    Reader.text limit s = (.error (.unexpectedEnd wanted got), s')) ↔ CutOff limit s.pending

theorem readFrom (limit : Nat) (hs : s.failing = false) : ReadFrom limit s where
  ok_iff t rest := by
    constructor
    · rintro ⟨s', hread, rfl⟩
      rcases text_cases limit hs with
        ⟨field, t', s₁, hp, ht, h⟩ | ⟨-, cause, s₁, h⟩ | ⟨-, _, _, s₁, h⟩ <;> rw [h] at hread
      · obtain ⟨ht', rfl⟩ := Prod.mk.inj hread
        rw [← Except.ok.inj ht']
        exact ⟨field, hp, ht⟩
      · simp at hread
      · simp at hread
    · rintro ⟨field, hp, ht⟩
      obtain ⟨s', hread, hrest, -⟩ := takes_of_isField ht rest s hs hp
      exact ⟨s', hread, hrest⟩
  format_iff := by
    refine ⟨fun ⟨cause, s', hread⟩ => ?_, fun h => format_of_refused h hs⟩
    rcases text_cases limit hs with ⟨_, t, s₁, -, -, h⟩ | ⟨hrefused, -⟩ | ⟨-, _, _, s₁, h⟩
    · simp [h] at hread
    · exact hrefused
    · simp [h] at hread
  unexpectedEnd_iff := by
    refine ⟨fun ⟨wanted, got, s', hread⟩ => ?_, fun h => unexpectedEnd_of_cutOff h hs⟩
    rcases text_cases limit hs with ⟨_, t, s₁, -, -, h⟩ | ⟨-, cause, s₁, h⟩ | ⟨hcut, -⟩
    · simp [h] at hread
    · simp [h] at hread
    · exact hcut

/-! ### Writing -/

/-- A text behind the shortest form of its length. -/
def written (t : String) : Bytes :=
  VarInt.ofLength t.utf8ByteSize ++ Utf8.encode t

theorem isField_written (hsize : t.utf8ByteSize < 2 ^ 31) (ht : t.length ≤ limit) :
    IsField limit (written t) t :=
  ⟨⟨_, announces_ofLength hsize, rfl⟩, ht⟩

/-- How a text is written: if it has no more characters than the limit, it is passed on to the
channel in one piece, and read back under every limit that leaves room for it. Otherwise nothing is
written. -/
structure Written (limit : Nat) (t : String) : Prop where
  ok_iff : ∀ held, (∃ sink, Sink.emit [encode limit t] ⟨held, none⟩ = (.ok (), sink)) ↔
    t.length ≤ limit
  emit_of_le : t.length ≤ limit → ∀ sink : Sink, sink.emit [encode limit t] = sink.write (written t)
  emit_of_lt : limit < t.length → ∀ sink : Sink, sink.emit [encode limit t] =
    (.error (.range ⟨"string", .characters t.length, .number 0, .number limit⟩), sink)
  takes : t.length ≤ limit → ∀ limit', t.length ≤ limit' → ∀ rest,
    (Reader.text limit').Takes (written t) rest t

theorem emit_of_le (ht : t.length ≤ limit) (sink : Sink) :
    sink.emit [encode limit t] = sink.write (written t) := by
  rw [encode, if_pos ht, Sink.emit_ok, written]

theorem emit_of_lt (ht : limit < t.length) (sink : Sink) : sink.emit [encode limit t] =
    (.error (.range ⟨"string", .characters t.length, .number 0, .number limit⟩), sink) := by
  rw [encode, if_neg (by omega), Sink.emit_error]

theorem writes (hlimit : 4 * limit < 2 ^ 31) (t : String) : Written limit t where
  ok_iff held := by
    constructor
    · rintro ⟨sink, hemit⟩
      refine Nat.le_of_not_lt fun ht => ?_
      rw [emit_of_lt ht] at hemit
      simp at hemit
    · intro ht
      exact ⟨_, emit_of_le ht _⟩
  emit_of_le := emit_of_le
  emit_of_lt := emit_of_lt
  takes ht limit' ht' rest := by
    have hsize := Utf8.utf8ByteSize_le t
    exact takes_of_isField (isField_written (by omega) ht') rest

/-- A text is accepted exactly where it stands behind an accepted form of its length in bytes and
has at most `limit` characters; what is malformed is told apart from what is not yet complete. A
text is written exactly if it has at most `limit` characters. -/
theorem read_and_written_exactly {limit : Nat} (hlimit : 4 * limit < 2 ^ 31) (t : String)
    {s : Source} (hs : s.failing = false) : ReadFrom limit s ∧ Written limit t :=
  ⟨readFrom limit hs, writes hlimit t⟩

/-- A letter of two bytes behind a long form of its length, from a channel that gives out single
bytes. -/
theorem read_and_written_exactly_long_form :
    let s := Source.chunked 1 false [0x82, 0x00, 0xC3, 0xA9, 7]
    4 * 1 < 2 ^ 31 ∧ s.failing = false ∧
      (∃ s', Reader.text 1 s = (.ok "é", s') ∧ s'.pending = [7]) ∧
      Sink.unlimited.emit [encode 1 "é"] = Sink.unlimited.write [0x02, 0xC3, 0xA9] ∧
      (Reader.text 1).Takes [0x02, 0xC3, 0xA9] [7] "é" := by
  intro s
  have hlimit : 4 * 1 < 2 ^ 31 := by decide
  have hs : s.failing = false := rfl
  obtain ⟨hread, hwritten⟩ := read_and_written_exactly hlimit "é" hs
  have hform : Kind.int32.IsForm [0x82, 0x00] 2 :=
    ⟨⟨.more (by decide) (.last (by decide)), by decide, fun b hb => nomatch hb⟩, by decide⟩
  have hfield : IsField 1 [0x82, 0x00, 0xC3, 0xA9] "é" :=
    ⟨⟨[0x82, 0x00], ⟨2, hform, by decide⟩, by decide⟩, by decide⟩
  have hbytes : written "é" = [0x02, 0xC3, 0xA9] := by
    rw [written, VarInt.ofLength, VarInt.encode, VarInt.ofNat, if_pos (by decide)]
    decide
  refine ⟨hlimit, hs, (hread.ok_iff "é" [7]).mpr ⟨_, rfl, hfield⟩, ?_, ?_⟩ <;> rw [← hbytes]
  · exact hwritten.emit_of_le (by decide) _
  · exact hwritten.takes (by decide) 1 (by decide) [7]

end MinecraftWire.Text
