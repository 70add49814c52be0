import MinecraftWire.Proofs.Endpoint
import MinecraftWire.Proofs.Inbox
import MinecraftWire.Proofs.Nbt.Refusal

/-! Lengths that are refused before anything behind them is looked at. A length that is negative or
above the limit is a fault of the format in each of the places that read one: the fault is the same
whatever follows the length, and what follows is still there to be read. -/

namespace MinecraftWire

open VarInt (Announces)

variable {α β : Type} {form : Bytes} {n : Int}

/-! ### Lengths on a channel -/

namespace Reader

/-- Behind the form the reader fails with one fault of the format, whatever follows and however the
channel goes on, and it has taken the form alone. -/
def Refuses (r : Reader α) (form : Bytes) : Prop :=
  ∃ cause, ∀ rest, r.Yields form rest (.error (.format cause))

/-- A reader that checks a length first refuses what its check does. -/
theorem refuses_of_check {check : Int32 → Except Fault β} {f : β → Reader α} (h : Announces form n)
    (hcheck : ∀ v : Int32, v.toInt = n → ∃ cause, check v = .error (.format cause)) :
    Refuses (varInt >>= fun v => lift (check v) >>= f) form := by
  obtain ⟨v, hform, hv⟩ := h
  obtain ⟨cause, hcause⟩ := hcheck v hv
  refine ⟨cause, fun rest => Yields.bind_nil (VarInt.Kind.int32.yields hform rest) ?_⟩
  rw [hcause]
  exact (yields_fail _ rest).fault_bind f

theorem text_refuses {limit : Nat} (h : Announces form n) (hn : n < 0 ∨ 4 * limit < n) :
    (text limit).Refuses form := by
  refine refuses_of_check h fun v hv => ?_
  unfold Text.checkLength
  by_cases hneg : v < 0
  · exact ⟨_, if_pos hneg⟩
  · have hlong : 4 * limit < v.toInt.toNat := by
      rw [Int32.lt_iff_toInt_lt, hv, Int32.toInt_zero] at hneg
      omega
    exact ⟨_, by rw [if_neg hneg, if_pos hlong]⟩

theorem blob_refuses (h : Announces form n) (hn : n < 0) : blob.Refuses form := by
  obtain ⟨v, hform, rfl⟩ := h
  refine ⟨.negativeLength "byte array" v.toInt, fun rest =>
    Yields.bind_nil (VarInt.Kind.int32.yields hform rest) ?_⟩
  rw [if_pos (Int32.lt_iff_toInt_lt.mpr hn)]
  exact yields_fail _ rest

end Reader

/-! ### Lengths of frames -/

/-- The comparison made of a frame's length, on the number it stands for. -/
theorem outOfBounds_iff {v : Int32} {limit : Nat} :
    v < 1 ∨ limit < v.toInt.toNat ↔ v.toInt < 1 ∨ limit < v.toInt := by
  rw [Int32.lt_iff_toInt_lt, Int32.toInt_one]
  omega

theorem Reader.packet_refuses {settings : FrameSettings} {set : PacketSet} (h : Announces form n)
    (hn : n < 1 ∨ settings.maxFrameLength < n) : (Reader.packet settings set).Refuses form := by
  refine Reader.refuses_of_check h fun v hv => ?_
  subst hv
  rcases Endpoint.checkFrameLength_cases settings v with ⟨-, hcause⟩ | ⟨hbound, -⟩
  · exact hcause
  · exact absurd (outOfBounds_iff.mpr hn) hbound

namespace Endpoint

theorem format_of_lengthFault? {e : Endpoint} {inbox : Bytes} {fault : Fault}
    (h : e.lengthFault? inbox = some fault) : ∃ cause, fault = .format cause := by
  unfold lengthFault? at h
  split at h
  · exact ⟨_, (Option.some.inj h).symm⟩
  · contradiction
  · split at h
    · exact ⟨_, (Option.some.inj h).symm⟩
    · contradiction

theorem lengthFault?_of_announces {e : Endpoint} (h : Announces form n)
    (hn : n < 1 ∨ e.settings.maxFrameLength < n) (rest : Bytes) :
    e.lengthFault? (form ++ rest) = some (.format (.inboxFrameLength n)) := by
  obtain ⟨v, hform, rfl⟩ := h
  rw [lengthFault?, VarInt.peek_of_isForm hform]
  exact if_pos (outOfBounds_iff.mpr hn)

end Endpoint

/-! ### Lengths of uncompressed data -/

theorem Reader.Yields.run {r : Reader α} {front rest : Bytes} {outcome : Except Fault α}
    (h : r.Yields front rest outcome) : r.run (front ++ rest) = (outcome, rest) := by
  obtain ⟨s', hread, hrest⟩ := h (.ofBytes (front ++ rest)) rfl
  rw [Reader.run, hread, ← hrest]

namespace Frame

theorem openEnvelope_refuses {s : FrameSettings} (h : Announces form n)
    (hn : n < 0 ∨ s.maxDataLength < n) :
    ∃ cause, ∀ data, openEnvelope s (form ++ data) = .error (.format cause) := by
  obtain ⟨v, hform, hv⟩ := h
  have hread (data : Bytes) : Reader.varInt.run (form ++ data) = (.ok v, data) :=
    (VarInt.Kind.int32.yields hform data).run
  by_cases hneg : v < 0
  · exact ⟨_, fun data => by rw [openEnvelope, hread]; exact if_pos hneg⟩
  have hlong : s.maxDataLength < v.toInt.toNat := by
    rw [Int32.lt_iff_toInt_lt, hv, Int32.toInt_zero] at hneg
    omega
  have hzero : v ≠ 0 := by
    rintro rfl
    simp at hlong
  refine ⟨.dataLength v.toInt.toNat s.maxDataLength, fun data => ?_⟩
  rw [openEnvelope, hread]
  simp only [hneg, hzero, if_false]
  exact if_pos hlong

theorem decode_refuses {s : FrameSettings} {set : PacketSet} (hs : s.compressionEnabled = true)
    (h : Announces form n) (hn : n < 0 ∨ s.maxDataLength < n) :
    ∃ cause, ∀ data, decode s set (form ++ data) = .error (.format cause) := by
  obtain ⟨cause, hopen⟩ := openEnvelope_refuses h hn
  exact ⟨cause, fun data => by rw [decode, if_pos hs, hopen]; rfl⟩

end Frame

/-! ### All lengths -/

/-- What is made of a length, in each place that reads one in this form. -/
structure Weighed (form : Bytes) (n : Int) : Prop where
  text : ∀ limit : Nat, n < 0 ∨ 4 * limit < n → (Reader.text limit).Refuses form
  blob : n < 0 → Reader.blob.Refuses form
  packet : ∀ (settings : FrameSettings) (set : PacketSet),
    n < 1 ∨ settings.maxFrameLength < n → (Reader.packet settings set).Refuses form
  inbox : ∀ e : Endpoint, n < 1 ∨ e.settings.maxFrameLength < n →
    ∃ cause, ∀ rest, e.decode (form ++ rest) = (.error (.format cause), form ++ rest)
  data : ∀ (settings : FrameSettings) (set : PacketSet), 0 ≤ settings.threshold →
    n < 0 ∨ settings.maxDataLength < n →
      ∃ cause, ∀ data, Frame.decode settings set (form ++ data) = .error (.format cause)

theorem weighed (h : Announces form n) : Weighed form n where
  text _ hn := Reader.text_refuses h hn
  blob hn := Reader.blob_refuses h hn
  packet _ _ hn := Reader.packet_refuses h hn
  inbox _ hn := ⟨.inboxFrameLength n, fun rest =>
    Endpoint.decode_refuses_iff.mpr (Endpoint.lengthFault?_of_announces h hn rest)⟩
  data _ _ hs hn := Frame.decode_refuses (decide_eq_true hs) h hn

/-- What is made of the lengths in a tree, on whatever channel: the reader of a root, and that of a
payload alone, refuses a length exactly where it comes to one that is negative, or to a positive
number of end marks, and has read nothing behind it. -/
structure Nbt.Weighed (s : Source) : Prop where
  root : ∀ (header : Header) (rest : Bytes) (fault : Fault), Read.Meets header s rest fault ↔
    Read.LengthFault fault ∧ ∃ s', Read.root header s = (.error fault, s') ∧ s'.pending = rest
  payload : ∀ (kind : TagKind) (rest : Bytes) (fault : Fault),
    Read.Encounters (.enter kind) [] s rest fault ↔
      Read.LengthFault fault ∧ ∃ s', Read.payload kind s = (.error fault, s') ∧ s'.pending = rest

/-- A length that is negative or above its limit is refused in whatever form it is announced, with
nothing read behind it. An endpoint leaves its inbox as it is with every length it refuses. -/
theorem lengths_refused_unread (h : Announces form n) (e : Endpoint) (s : Source) :
    Weighed form n ∧ Nbt.Weighed s ∧
      ∀ inbox fault, e.lengthFault? inbox = some fault →
        e.decode inbox = (.error fault, inbox) ∧ ∃ cause, fault = .format cause :=
  ⟨weighed h, ⟨fun _ _ _ => Nbt.Read.meets_iff, fun _ _ _ => Nbt.Read.encounters_iff⟩,
    fun _ _ h => ⟨Endpoint.decode_refuses_iff.mpr h, Endpoint.format_of_lengthFault? h⟩⟩

/-- Minus one, and a list of three end marks, on channels that give out single bytes and then fail.
-/
theorem lengths_refused_unread_minus_one :
    let form : Bytes := [0xFF, 0xFF, 0xFF, 0xFF, 0x0F]
    let s := Source.chunked 1 true [9, 0, 0, 0, 0, 3, 7]
    let e : Endpoint := ⟨⟨⟨757⟩, []⟩, .serverbound, .status, .compressed 0⟩
    Announces form (-1) ∧ (Reader.text 16).Refuses form ∧ Reader.blob.Refuses form ∧
      (Reader.packet e.settings e.packets).Refuses form ∧
      (∃ cause, ∀ data, Frame.decode e.settings e.packets (form ++ data) =
        .error (.format cause)) ∧
      (∃ s', Nbt.Read.root .unnamed s = (.error (.format (.nbt (.endElements 3))), s') ∧
        s'.pending = [7]) ∧
      ∃ cause, e.decode (form ++ [7]) = (.error (.format cause), form ++ [7]) := by
  intro form s e
  have hdelimited : VarInt.Delimited form :=
    .more (by decide) (.more (by decide) (.more (by decide) (.more (by decide)
      (.last (by decide)))))
  have hlast (b : UInt8) (hb : form[4]? = some b) : b.toNat % 128 ≤ 0x0F := by
    obtain rfl : 0x0F = b := Option.some.inj hb
    decide
  have hform : VarInt.Kind.int32.IsForm form (-1) := ⟨⟨hdelimited, by decide, hlast⟩, by decide⟩
  have h : Announces form (-1) := ⟨-1, hform, by decide⟩
  obtain ⟨hlength, htree, -⟩ := lengths_refused_unread h e s
  obtain ⟨s₁, hread, hp⟩ := Nbt.Read.yields_kind .list [0, 0, 0, 0, 3, 7] s rfl
  have hmeets : Nbt.Read.Meets .unnamed s [7] (Nbt.Read.endMarks 3) :=
    .inside hread (by decide) rfl
      ⟨_, _, s₁, _, .refl, .endMarks (n := 3) (by decide) (by decide), hp⟩
  obtain ⟨cause, hinbox⟩ := hlength.inbox e (by decide)
  exact ⟨h, hlength.text 16 (by decide), hlength.blob (by decide),
    hlength.packet _ _ (by decide), hlength.data _ _ (by decide) (by decide),
    ((htree.root _ _ _).mp hmeets).2, cause, hinbox [7]⟩

end MinecraftWire
