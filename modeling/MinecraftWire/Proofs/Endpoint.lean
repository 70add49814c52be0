import MinecraftWire.Endpoint
import MinecraftWire.Proofs.VarInt

/-! Two readers of frames. An endpoint looks for a frame at the front of its inbox and leaves the inbox
as it is while there is no whole frame; a reader takes the same bytes off a channel. They find the
same packets and the same kinds of faults, and where the endpoint waits the reader comes to the end of
its channel. -/

namespace MinecraftWire

/-! ### Reading behind a length -/

namespace Reader

variable {settings : FrameSettings} {set : PacketSet} {s s' : Source} {length : Int32}

theorem packet_of_varInt_error {fault : Fault} (h : varInt s = (.error fault, s')) :
    Reader.packet settings set s = (.error fault, s') :=
  bind_of_error h

theorem packet_of_check_error {fault : Fault} (h : varInt s = (.ok length, s'))
    (hcheck : settings.checkFrameLength length = .error fault) :
    Reader.packet settings set s = (.error fault, s') := by
  refine (bind_of_ok h).trans ?_
  rw [hcheck]
  rfl

theorem packet_of_check_ok {n : Nat} (h : varInt s = (.ok length, s'))
    (hcheck : settings.checkFrameLength length = .ok n) :
    Reader.packet settings set s =
      (exactly n >>= fun frame => lift (Frame.decode settings set frame)) s' := by
  refine (bind_of_ok h).trans ?_
  rw [hcheck]
  rfl

end Reader

namespace Endpoint

/-! ### Waiting for bytes -/

/-- The inbox ends inside the length of a frame, each byte announcing another, or before as many bytes
as the length announces, where a frame may have so many. -/
inductive Waits (e : Endpoint) (inbox : Bytes) : Prop where
  | inLength (hlength : inbox.length < VarInt.maxLength 32) (hmore : ∀ b ∈ inbox, 128 ≤ b.toNat)
  | inBody {length : Int32} {taken : Nat} (hpeek : VarInt.peek inbox = .ok (some (length, taken)))
      (hpos : 1 ≤ length) (hmax : length.toInt.toNat ≤ e.settings.maxFrameLength)
      (hshort : inbox.length < taken + length.toInt.toNat)

variable {e : Endpoint} {inbox : Bytes}

theorem waits_of_peek_none (h : VarInt.peek inbox = .ok none) : e.Waits inbox :=
  .inLength (VarInt.peek_eq_none_iff.mp h).1 (VarInt.peek_eq_none_iff.mp h).2

theorem not_waits_of_peek_error {fault : VarInt.Fault} (h : VarInt.peek inbox = .error fault) :
    ¬ e.Waits inbox := by
  rintro (⟨hlength, hmore⟩ | ⟨hpeek, -, -, -⟩)
  · rw [VarInt.peek_eq_none_iff.mpr ⟨hlength, hmore⟩] at h
    contradiction
  · rw [hpeek] at h
    contradiction

theorem waits_iff_of_peek_some {length : Int32} {taken : Nat}
    (h : VarInt.peek inbox = .ok (some (length, taken))) :
    e.Waits inbox ↔ 1 ≤ length ∧ length.toInt.toNat ≤ e.settings.maxFrameLength ∧
      inbox.length < taken + length.toInt.toNat := by
  constructor
  · rintro (⟨hlength, hmore⟩ | ⟨hpeek, hpos, hmax, hshort⟩)
    · rw [VarInt.peek_eq_none_iff.mpr ⟨hlength, hmore⟩] at h
      simp at h
    · rw [hpeek] at h
      obtain ⟨rfl, rfl⟩ := Prod.mk.inj (Option.some.inj (Except.ok.inj h))
      exact ⟨hpos, hmax, hshort⟩
  · rintro ⟨hpos, hmax, hshort⟩
    exact .inBody h hpos hmax hshort

/-! ### The two readers -/

/-- How the answers of the two readers to the same bytes go together. -/
inductive Answers (e : Endpoint) (inbox : Bytes) : Prop where
  | waiting (hwaits : e.Waits inbox) (hdecode : e.decode inbox = (.ok none, inbox))
      (expected : Nat) (got : Bytes)
      (hread : (Reader.packet e.settings e.packets).run inbox = (.error (.unexpectedEnd expected got), []))
  | packet (hwaits : ¬ e.Waits inbox) (p : Packet) (rest : Bytes)
      (hdecode : e.decode inbox = (.ok (some p), rest))
      (hread : (Reader.packet e.settings e.packets).run inbox = (.ok p, rest))
  | faults (hwaits : ¬ e.Waits inbox) (fault fault' : Fault) (rest rest' : Bytes)
      (hdecode : e.decode inbox = (.error fault, rest))
      (hread : (Reader.packet e.settings e.packets).run inbox = (.error fault', rest'))
      (hkind : fault.kind = fault'.kind)

/-- The endpoint's own test of a length refuses what the reader refuses. -/
theorem checkFrameLength_cases (settings : FrameSettings) (length : Int32) :
    (length < 1 ∨ settings.maxFrameLength < length.toInt.toNat) ∧
        (∃ cause, settings.checkFrameLength length = .error (.format cause)) ∨
      ¬ (length < 1 ∨ settings.maxFrameLength < length.toInt.toNat) ∧
        settings.checkFrameLength length = .ok length.toInt.toNat := by
  unfold FrameSettings.checkFrameLength
  by_cases hlow : length < 1
  · exact .inl ⟨.inl hlow, _, if_pos hlow⟩
  by_cases hhigh : settings.maxFrameLength < length.toInt.toNat
  · exact .inl ⟨.inr hhigh, _, by rw [if_neg hlow, if_pos hhigh]⟩
  · exact .inr ⟨not_or.mpr ⟨hlow, hhigh⟩, by rw [if_neg hlow, if_neg hhigh]⟩

/-- A length that is there, with the channel behind it. -/
theorem answers_of_length {length : Int32} {taken : Nat} {s : Source}
    (hpeek : VarInt.peek inbox = .ok (some (length, taken)))
    (hread : Reader.varInt (.ofBytes inbox) = (.ok length, s))
    (hpending : s.pending = inbox.drop taken) (hs : s.failing = false) : e.Answers inbox := by
  have hwaits := waits_iff_of_peek_some (e := e) hpeek
  have htaken := VarInt.length_of_peek hpeek
  rcases checkFrameLength_cases e.settings length with ⟨hbound, cause, hcheck⟩ | ⟨hbound, hcheck⟩
  · have hnot : ¬ e.Waits inbox := by
      rw [hwaits, ← Int32.not_lt]
      rintro ⟨hlow, hhigh, -⟩
      exact hbound.elim hlow (by omega)
    refine .faults hnot (.format (.inboxFrameLength length.toInt)) (.format cause) inbox s.pending
      ?_ ?_ rfl
    · rw [decode, Frame.poll, hpeek]
      exact if_pos hbound
    · rw [Reader.run, Reader.packet_of_check_error hread hcheck]
  by_cases hshort : inbox.length < taken + length.toInt.toNat
  · obtain ⟨s', hr, hend⟩ := Source.readFull_of_lt (n := length.toInt.toNat) (s := s)
      (by rw [hpending, List.length_drop]; omega) hs
    obtain ⟨hlow, hhigh⟩ := not_or.mp hbound
    refine .waiting (hwaits.mpr ⟨Int32.not_lt.mp hlow, by omega, hshort⟩) ?_ length.toInt.toNat
      s.pending ?_
    · rw [decode, Frame.poll, hpeek]
      simp only [hbound, hshort, if_true, if_false]
    · rw [Reader.run, Reader.packet_of_check_ok hread hcheck,
        Reader.bind_of_error (r := Reader.exactly _) hr]
      exact Prod.ext rfl hend
  · -- a whole frame, whose body both hand to the same decoder
    obtain ⟨s', hr, hrest, -⟩ := Source.readFull_of_le (n := length.toInt.toNat) (s := s)
      (by rw [hpending, List.length_drop]; omega)
    rw [hpending] at hr hrest
    have hnot : ¬ e.Waits inbox := fun h => hshort (hwaits.mp h).2.2
    have hdecode : e.decode inbox =
        ((Frame.decode e.settings e.packets ((inbox.drop taken).take length.toInt.toNat)).map some,
          (inbox.drop taken).drop length.toInt.toNat) := by
      rw [decode, Frame.poll, hpeek]
      simp only [hbound, hshort, if_false, List.splitAt_eq]
    have hrun : (Reader.packet e.settings e.packets).run inbox =
        (Frame.decode e.settings e.packets ((inbox.drop taken).take length.toInt.toNat),
          (inbox.drop taken).drop length.toInt.toNat) := by
      rw [Reader.run, Reader.packet_of_check_ok hread hcheck,
        Reader.bind_of_ok (r := Reader.exactly _) hr, ← hrest]
      cases Frame.decode e.settings e.packets _ <;> rfl
    rcases hframe : Frame.decode e.settings e.packets ((inbox.drop taken).take length.toInt.toNat)
      with fault | p
    · rw [hframe] at hdecode hrun
      exact .faults hnot fault fault _ _ hdecode hrun rfl
    · rw [hframe] at hdecode hrun
      exact .packet hnot p _ hdecode hrun

theorem answers (e : Endpoint) (inbox : Bytes) : e.Answers inbox := by
  have hvarInt := Reader.readsPeeked_varInt (s := .ofBytes inbox) rfl
  rw [show (Source.ofBytes inbox).pending = inbox from rfl] at hvarInt
  rcases hpeek : VarInt.peek inbox with cause | _ | ⟨length, taken⟩ <;> rw [hpeek] at hvarInt
  · obtain ⟨s, hread⟩ := hvarInt
    refine .faults (not_waits_of_peek_error hpeek) _ _ inbox s.pending (by rw [decode, Frame.poll, hpeek]) ?_ rfl
    rw [Reader.run, Reader.packet_of_varInt_error hread]
  · obtain ⟨s, hread, hend⟩ := hvarInt
    refine .waiting (waits_of_peek_none hpeek) (by rw [decode, Frame.poll, hpeek]) (0 + inbox.length + 1) inbox ?_
    rw [Reader.run, Reader.packet_of_varInt_error hread]
    exact Prod.ext rfl hend
  · obtain ⟨s, hread, hpending, hs⟩ := hvarInt
    exact answers_of_length hpeek hread hpending hs

/-- The endpoint takes a packet out of its inbox exactly where the reader reads it. -/
theorem decode_eq_packet_iff {p : Packet} {rest : Bytes} :
    e.decode inbox = (.ok (some p), rest) ↔
      (Reader.packet e.settings e.packets).run inbox = (.ok p, rest) := by
  rcases e.answers inbox with ⟨-, hdecode, _, _, hread⟩ | ⟨-, p', rest', hdecode, hread⟩ |
    ⟨-, _, _, _, _, hdecode, hread, -⟩
  · simp [hdecode, hread]
  · simp [hdecode, hread]
  · simp [hdecode, hread]

theorem decode_eq_none_iff :
    (∃ rest, e.decode inbox = (.ok none, rest)) ↔ e.Waits inbox := by
  rcases e.answers inbox with ⟨hwaits, hdecode, _⟩ | ⟨hwaits, _, _, hdecode, -⟩ |
    ⟨hwaits, _, _, _, _, hdecode, -⟩
  · simp [hdecode, hwaits]
  · simp [hdecode, hwaits]
  · simp [hdecode, hwaits]

/-- An endpoint and a reader agree on every byte string: they give the same packets and leave the same
bytes; the endpoint waits exactly where the bytes end inside a frame, and there the reader comes to the
end of its channel; in all other cases both fail with the same kind of fault. -/
theorem decode_agrees_with_reader (e : Endpoint) (inbox : Bytes) :
    (∀ p rest, e.decode inbox = (.ok (some p), rest) ↔
      (Reader.packet e.settings e.packets).run inbox = (.ok p, rest)) ∧
    ((∃ rest, e.decode inbox = (.ok none, rest)) ↔ e.Waits inbox) ∧
    (e.Waits inbox → e.decode inbox = (.ok none, inbox) ∧ ∃ expected got,
      (Reader.packet e.settings e.packets).run inbox = (.error (.unexpectedEnd expected got), [])) ∧
    ((∃ answer rest, e.decode inbox = (.ok answer, rest)) ∨ ∃ fault fault' rest rest',
      e.decode inbox = (.error fault, rest) ∧
      (Reader.packet e.settings e.packets).run inbox = (.error fault', rest') ∧
      fault.kind = fault'.kind) := by
  refine ⟨fun p rest => decode_eq_packet_iff, decode_eq_none_iff, ?_, ?_⟩
  · intro h
    rcases e.answers inbox with ⟨-, hdecode, expected, got, hread⟩ | ⟨hnot, -⟩ | ⟨hnot, -⟩
    · exact ⟨hdecode, expected, got, hread⟩
    · exact absurd h hnot
    · exact absurd h hnot
  · rcases e.answers inbox with ⟨-, hdecode, _⟩ | ⟨-, p, rest, hdecode, -⟩ |
      ⟨-, fault, fault', rest, rest', hdecode, hread, hkind⟩
    · exact .inl ⟨_, _, hdecode⟩
    · exact .inl ⟨_, _, hdecode⟩
    · exact .inr ⟨fault, fault', rest, rest', hdecode, hread, hkind⟩

/-- A frame of nine bytes of which one is there. -/
theorem decode_agrees_with_reader_inside_frame :
    let e : Endpoint := ⟨⟨⟨757⟩, []⟩, .serverbound, .status, .uncompressed⟩
    e.Waits [9, 1] ∧ e.decode [9, 1] = (.ok none, [9, 1]) ∧ ∃ expected got,
      (Reader.packet e.settings e.packets).run [9, 1] = (.error (.unexpectedEnd expected got), []) := by
  intro e
  have hwaits : e.Waits [9, 1] := by
    have hpeek : VarInt.peek [9, 1] = .ok (some (9, 1)) := by decide
    exact .inBody hpeek (by decide) (by decide) (by decide)
  exact ⟨hwaits, (decode_agrees_with_reader e [9, 1]).2.2.1 hwaits⟩

/-- A length above the limit is refused before its bytes are there: the bytes end before as many as
the length announces, and the endpoint does not wait for them. -/
theorem decode_refuses_before_announced :
    let e : Endpoint := ⟨⟨⟨757⟩, []⟩, .clientbound, .handshaking, .uncompressed⟩
    let inbox : Bytes := [255, 255, 255, 255, 7]
    (∃ length taken, VarInt.peek inbox = .ok (some (length, taken)) ∧
      inbox.length < taken + length.toInt.toNat) ∧
    ¬ ∃ rest, e.decode inbox = (.ok none, rest) := by
  intro e inbox
  have hpeek : VarInt.peek inbox = .ok (some (2147483647, 5)) := by decide
  have hrefused : e.decode inbox = (.error (.format (.inboxFrameLength 2147483647)), inbox) := rfl
  refine ⟨⟨2147483647, 5, hpeek, by decide⟩, ?_⟩
  rintro ⟨rest, hwait⟩
  rw [hrefused] at hwait
  simp at hwait

end Endpoint

end MinecraftWire
