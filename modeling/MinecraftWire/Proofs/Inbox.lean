import MinecraftWire.Endpoint
import MinecraftWire.Proofs.Registry.Table
import MinecraftWire.Proofs.VarInt

/-! Frames from a growing inbox. What an endpoint finds at the front of its inbox it finds again
however the inbox goes on, so it makes no difference in which pieces the bytes arrive. -/

namespace MinecraftWire

/-- What decoding finds: a whole frame, with its packet or the fault of its body, or a length that
cannot be. -/
inductive Delivery where
  | frame (outcome : Except Fault Packet)
  | refused (fault : Fault)

namespace Endpoint

/-! ### One call -/

/-- What is wrong with the length at the front of an inbox, if it is there and cannot be. -/
def lengthFault? (e : Endpoint) (inbox : Bytes) : Option Fault :=
  match VarInt.peek inbox with
  | .error cause => some (.format (.varInt cause))
  | .ok none => none
  | .ok (some (length, _)) =>
    if length < 1 ∨ e.settings.maxFrameLength < length.toInt.toNat then
      some (.format (.inboxFrameLength length.toInt))
    else none

/-- A call that fails and leaves the inbox as it was has found a bad length. -/
theorem decode_refuses_iff {e : Endpoint} {inbox : Bytes} {fault : Fault} :
    e.decode inbox = (.error fault, inbox) ↔ e.lengthFault? inbox = some fault := by
  unfold decode Frame.poll lengthFault?
  rcases hpeek : VarInt.peek inbox with cause | _ | ⟨length, taken⟩
  · simp
  · simp
  by_cases hbound : length < 1 ∨ e.settings.maxFrameLength < length.toInt.toNat
  · simp only [hbound, if_true, Prod.mk.injEq, Except.error.injEq, and_true, Option.some.injEq]
  by_cases hwhole : inbox.length < taken + length.toInt.toNat
  · simp only [hbound, hwhole, if_true, if_false, Prod.mk.injEq, reduceCtorEq, false_and]
  -- a call that takes a frame does not leave the inbox as it was
  have htaken := VarInt.length_of_peek hpeek
  simp only [hbound, hwhole, if_false, List.splitAt_eq, Prod.mk.injEq, reduceCtorEq, iff_false]
  rintro ⟨-, hrest⟩
  have hlength := congrArg List.length hrest
  simp only [List.length_drop] at hlength
  omega

/-- A bad length stays bad. -/
theorem lengthFault?_append {e : Endpoint} {inbox : Bytes} {fault : Fault} (ext : Bytes)
    (h : e.lengthFault? inbox = some fault) : e.lengthFault? (inbox ++ ext) = some fault := by
  have hpeek : VarInt.peek (inbox ++ ext) = VarInt.peek inbox := by
    refine VarInt.peek_append ext fun hnone => ?_
    rw [lengthFault?, hnone] at h
    simp at h
  rw [lengthFault?, hpeek]
  exact h

/-- A call waits, finds a bad length or takes a frame. Taking does not depend on the bytes behind. -/
theorem decode_cases (e : Endpoint) (inbox : Bytes) :
    e.decode inbox = (.ok none, inbox) ∨ (∃ fault, e.lengthFault? inbox = some fault) ∨
    ∃ (outcome : Except Fault Packet) (k : Nat), 0 < k ∧ k ≤ inbox.length ∧
      ∀ ext, e.decode (inbox ++ ext) = (outcome.map some, inbox.drop k ++ ext) := by
  rcases hpeek : VarInt.peek inbox with fault | _ | ⟨length, taken⟩
  · exact .inr (.inl ⟨_, by rw [lengthFault?, hpeek]⟩)
  · exact .inl (by rw [decode, Frame.poll, hpeek])
  by_cases hbound : length < 1 ∨ e.settings.maxFrameLength < length.toInt.toNat
  · refine .inr (.inl ⟨.format (.inboxFrameLength length.toInt), ?_⟩)
    rw [lengthFault?, hpeek]
    exact if_pos hbound
  by_cases hwhole : inbox.length < taken + length.toInt.toNat
  · refine .inl ?_
    rw [decode, Frame.poll, hpeek]
    simp only [hbound, hwhole, if_false, if_true]
  have htaken := VarInt.length_of_peek hpeek
  refine .inr (.inr ⟨Frame.decode e.settings e.packets
    ((inbox.drop taken).take length.toInt.toNat), taken + length.toInt.toNat, by omega, by omega,
    fun ext => ?_⟩)
  have hext : VarInt.peek (inbox ++ ext) = .ok (some (length, taken)) := by
    rw [VarInt.peek_append ext (by simp [hpeek]), hpeek]
  have hlength : length.toInt.toNat ≤ (inbox.drop taken).length := by
    rw [List.length_drop]
    omega
  rw [decode, Frame.poll, hext]
  simp only [hbound, if_false, List.length_append, List.splitAt_eq]
  rw [if_neg (by omega), List.drop_append_of_le_length htaken.2,
    List.take_append_of_le_length hlength, List.drop_append_of_le_length hlength, List.drop_drop]

theorem length_of_decode_some {e : Endpoint} {inbox rest : Bytes} {p : Packet}
    (h : e.decode inbox = (.ok (some p), rest)) : rest.length < inbox.length := by
  have hcases := e.decode_cases inbox
  rcases hcases with hwait | ⟨fault, hfault⟩ | ⟨outcome, k, hk, hkl, htake⟩
  · simp [hwait] at h
  · simp [decode_refuses_iff.mpr hfault] at h
  · have hnow := htake []
    rw [List.append_nil, h, Prod.mk.injEq, List.append_nil] at hnow
    rw [hnow.2, List.length_drop]
    omega

/-! ### Draining the inbox -/

/-- Decode until there is no whole frame or a length is refused. -/
def drain (e : Endpoint) (inbox : Bytes) : List Delivery × Bytes :=
  match h : e.decode inbox with
  | (.ok none, rest) => ([], rest)
  | (.ok (some p), rest) =>
    have := length_of_decode_some h
    let later := e.drain rest
    (.frame (.ok p) :: later.1, later.2)
  | (.error fault, rest) =>
    if rest.length < inbox.length then
      let later := e.drain rest
      (.frame (.error fault) :: later.1, later.2)
    else ([.refused fault], rest)
termination_by inbox.length

theorem drain_wait {e : Endpoint} {inbox : Bytes} (h : e.decode inbox = (.ok none, inbox)) :
    e.drain inbox = ([], inbox) := by
  rw [drain]
  split <;> rename_i h' <;> rw [h] at h' <;> simp at h'
  rw [h']

theorem drain_refuse {e : Endpoint} {inbox : Bytes} {fault : Fault}
    (h : e.decode inbox = (.error fault, inbox)) : e.drain inbox = ([.refused fault], inbox) := by
  rw [drain]
  split <;> rename_i h' <;> rw [h] at h' <;> simp at h'
  rw [if_neg (by simp [h'.2]), h'.1, h'.2]

theorem drain_take {e : Endpoint} {inbox rest : Bytes} {outcome : Except Fault Packet}
    (h : e.decode inbox = (outcome.map some, rest)) (hrest : rest.length < inbox.length) :
    e.drain inbox = (.frame outcome :: (e.drain rest).1, (e.drain rest).2) := by
  rw [drain]
  split <;> rename_i h' <;> rw [h] at h' <;> cases outcome <;> simp [Except.map] at h'
  · obtain ⟨rfl, rfl⟩ := h'
    rfl
  · obtain ⟨rfl, rfl⟩ := h'
    rw [if_pos hrest]

/-! ### Arrival in pieces -/

/-- The deliveries up to the first refusal. -/
def upToRefusal : List Delivery → List Delivery
  | [] => []
  | .frame outcome :: later => .frame outcome :: upToRefusal later
  | .refused fault :: _ => [.refused fault]

/-- Append chunk after chunk to the inbox, and drain it after each. -/
def deliver (e : Endpoint) : Bytes → List Bytes → List Delivery × Bytes
  | inbox, [] => ([], inbox)
  | inbox, chunk :: chunks =>
    let now := e.drain (inbox ++ chunk)
    let later := e.deliver now.2 chunks
    (now.1 ++ later.1, later.2)

theorem upToRefusal_append_congr (ds : List Delivery) {xs ys : List Delivery}
    (h : upToRefusal xs = upToRefusal ys) : upToRefusal (ds ++ xs) = upToRefusal (ds ++ ys) := by
  induction ds with
  | nil => exact h
  | cons d ds ih =>
    cases d with
    | frame outcome => simp only [List.cons_append, upToRefusal, ih]
    | refused fault => rfl

/-- Draining goes on where it stopped when more bytes come. -/
theorem drain_append (e : Endpoint) (inbox ext : Bytes) :
    upToRefusal (e.drain (inbox ++ ext)).1 =
        upToRefusal ((e.drain inbox).1 ++ (e.drain ((e.drain inbox).2 ++ ext)).1) ∧
      (e.drain (inbox ++ ext)).2 = (e.drain ((e.drain inbox).2 ++ ext)).2 := by
  induction hn : inbox.length using Nat.strongRecOn generalizing inbox with
  | ind n ih =>
    subst hn
    have hcases := e.decode_cases inbox
    rcases hcases with hwait | ⟨fault, hfault⟩ | ⟨outcome, k, hk, hkl, htake⟩
    · rw [drain_wait hwait]
      exact ⟨rfl, rfl⟩
    · -- the refusal is found again behind the new bytes, which the truncation leaves out
      have hlater := decode_refuses_iff.mpr (lengthFault?_append ext hfault)
      rw [drain_refuse (decode_refuses_iff.mpr hfault), drain_refuse hlater]
      exact ⟨rfl, rfl⟩
    · have hshort : (inbox.drop k).length < inbox.length := by
        rw [List.length_drop]
        omega
      have hfirst : e.decode inbox = (outcome.map some, inbox.drop k) := by simpa using htake []
      have hnow := drain_take hfirst hshort
      have hlater := drain_take (htake ext) (by simp only [List.length_append]; omega)
      obtain ⟨hfound, hleft⟩ := ih _ hshort (inbox.drop k) rfl
      rw [hnow, hlater]
      exact ⟨congrArg (Delivery.frame outcome :: ·) hfound, hleft⟩

/-- Chunks give what their bytes give in one piece. -/
theorem deliver_eq_drain (e : Endpoint) (inbox chunk : Bytes) (chunks : List Bytes) :
    upToRefusal (e.deliver inbox (chunk :: chunks)).1 =
        upToRefusal (e.drain (inbox ++ (chunk :: chunks).flatten)).1 ∧
      (e.deliver inbox (chunk :: chunks)).2 =
        (e.drain (inbox ++ (chunk :: chunks).flatten)).2 := by
  induction chunks generalizing inbox chunk with
  | nil => simp [deliver]
  | cons next chunks ih =>
    obtain ⟨hlater, hleft⟩ := ih (e.drain (inbox ++ chunk)).2 next
    obtain ⟨hfound, hrest⟩ := e.drain_append (inbox ++ chunk) (next :: chunks).flatten
    rw [List.append_assoc, ← List.flatten_cons] at hfound hrest
    rw [deliver, hfound, hrest]
    exact ⟨upToRefusal_append_congr _ hlater, hleft⟩

/-- However a byte string is cut into chunks, it gives the same deliveries, up to the first refusal,
and leaves the same inbox as in one piece. A length that was refused is refused again in every
extension of the inbox. -/
theorem deliver_of_any_cut (e : Endpoint) (inbox chunk : Bytes) (chunks : List Bytes) :
    (upToRefusal (e.deliver inbox (chunk :: chunks)).1 =
        upToRefusal (e.deliver inbox [(chunk :: chunks).flatten]).1 ∧
      (e.deliver inbox (chunk :: chunks)).2 = (e.deliver inbox [(chunk :: chunks).flatten]).2) ∧
    ∀ fault, e.decode inbox = (.error fault, inbox) →
      ∀ ext, e.decode (inbox ++ ext) = (.error fault, inbox ++ ext) := by
  constructor
  · obtain ⟨hfound, hleft⟩ := e.deliver_eq_drain inbox chunk chunks
    obtain ⟨hwhole, hrest⟩ := e.deliver_eq_drain inbox (chunk :: chunks).flatten []
    rw [List.flatten_singleton] at hwhole hrest
    exact ⟨hfound.trans hwhole.symm, hleft.trans hrest.symm⟩
  · intro fault h ext
    exact decode_refuses_iff.mpr (lengthFault?_append ext (decode_refuses_iff.mp h))

/-- A ping that is cut inside its length and inside its body, a ping that ends too early, and a zero
length, which comes back however the inbox goes on. -/
theorem deliver_of_any_cut_past_short_ping :
    let table : PacketTable := ⟨⟨757⟩, PacketTable.entriesOf (PacketType.declared ⟨757⟩)⟩
    let e : Endpoint := ⟨table, .serverbound, .status, .uncompressed⟩
    let pieces : List Bytes := [[137], [0, 1, 0, 0], [0, 0, 0, 0, 0, 5, 3, 1], [0, 0, 0, 7]]
    let deliveries : List Delivery := [.frame (.ok (.ping 5)),
      .frame (.error (.unexpectedEnd 8 [0, 0])), .refused (.format (.inboxFrameLength 0))]
    e.deliver [] [pieces.flatten] = (deliveries, [0, 7]) ∧
    (upToRefusal (e.deliver [] pieces).1 = deliveries ∧ (e.deliver [] pieces).2 = [0, 7]) ∧
    e.decode [0, 7] = (.error (.format (.inboxFrameLength 0)), [0, 7]) ∧
    ∀ ext, e.decode ([0, 7] ++ ext) = (.error (.format (.inboxFrameLength 0)), [0, 7] ++ ext) := by
  intro table e pieces deliveries
  have hping : e.decode ([] ++ pieces.flatten) =
      (Except.map some (.ok (.ping 5)), [3, 1, 0, 0, 0, 7]) := by
    decide +kernel
  have hshort : e.decode [3, 1, 0, 0, 0, 7] =
      (Except.map some (.error (.unexpectedEnd 8 [0, 0])), [0, 7]) := by
    decide +kernel
  have hzero : e.decode [0, 7] = (.error (.format (.inboxFrameLength 0)), [0, 7]) := rfl
  have hdrain : e.drain ([] ++ pieces.flatten) = (deliveries, [0, 7]) := by
    rw [drain_take hping (by decide), drain_take hshort (by decide), drain_refuse hzero]
  have hwhole : e.deliver [] [pieces.flatten] = (deliveries, [0, 7]) := by
    simp only [deliver, hdrain, List.append_nil]
  obtain ⟨hfound, hleft⟩ := (deliver_of_any_cut e [] [137] pieces.tail).1
  change _ = upToRefusal (e.deliver [] [pieces.flatten]).1 at hfound
  change _ = (e.deliver [] [pieces.flatten]).2 at hleft
  rw [hwhole] at hfound hleft
  exact ⟨hwhole, ⟨hfound, hleft⟩, hzero, (deliver_of_any_cut e [0, 7] [] []).2 _ hzero⟩

end Endpoint

end MinecraftWire
