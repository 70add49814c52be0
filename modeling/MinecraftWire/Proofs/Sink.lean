import MinecraftWire.Nbt.Writer
import MinecraftWire.Proofs.Frame
import MinecraftWire.Proofs.Text.Field

/-! Sinks that run full. Packets and tags are encoded before any of their bytes is written, so what a
sink holds is the beginning of the forms of those that could be encoded, and it ends inside a form
only where the sink ran full. In which pieces the sink took its bytes makes no difference. -/

namespace MinecraftWire

/-! ### What a sink holds -/

namespace Sink

/-- A sink that accepts `limit` bytes in all, once it was given `bytes`. -/
def given (limit : Nat) (bytes : Bytes) : Sink :=
  ⟨bytes.take limit, some (limit - bytes.length)⟩

variable {room : Nat} {bytes held : Bytes}

theorem write_some (held bytes : Bytes) (room : Nat) : write bytes ⟨held, some room⟩ =
    (if bytes.length ≤ room then .ok () else .error (.channel .sink),
      ⟨held ++ bytes.take room, some (room - bytes.length)⟩) := by
  unfold write
  dsimp only
  split
  · rename_i hroom
    rw [List.take_of_length_le hroom]
  · rename_i hroom
    rw [Nat.sub_eq_zero_of_le (by omega)]

theorem write_given (limit : Nat) (earlier bytes : Bytes) : write bytes (.given limit earlier) =
    (if bytes.length ≤ limit - earlier.length then .ok () else .error (.channel .sink),
      .given limit (earlier ++ bytes)) := by
  rw [Sink.given, write_some, Sink.given, List.take_append, List.length_append, Nat.sub_add_eq]

/-- To write some of the bytes and then the others is to write all of them. -/
theorem write_drop {n : Nat} (hn : n ≤ room) (hlength : n ≤ bytes.length) :
    write (bytes.drop n) ⟨held ++ bytes.take n, some (room - n)⟩ =
      write bytes ⟨held, some room⟩ := by
  have hfits : (bytes.drop n).length ≤ room - n ↔ bytes.length ≤ room := by
    rw [List.length_drop]
    omega
  have htake : bytes.take n ++ (bytes.drop n).take (room - n) = bytes.take room := by
    rw [← List.take_add, Nat.add_sub_cancel' hn]
  have hroom : room - n - (bytes.length - n) = room - bytes.length := by omega
  rw [write_some, write_some, List.append_assoc, htake]
  simp only [hfits]
  rw [List.length_drop, hroom]

end Sink

/-- A channel that takes what it is offered in pieces whose sizes it chooses, until it is full. -/
structure Outlet where
  held : Bytes
  room : Nat
  /-- The most bytes taken by each call, less one. -/
  grant : Nat → Nat
  calls : Nat

namespace Outlet

def limited (room : Nat) (grant : Nat → Nat) : Outlet :=
  ⟨[], room, grant, 0⟩

def toSink (o : Outlet) : Sink :=
  ⟨o.held, some o.room⟩

/-- The bytes that a call takes of those it is offered. -/
def taken (bytes : Bytes) (o : Outlet) : Nat :=
  min bytes.length (min o.room (o.grant o.calls + 1))

/-- Offer what is left until all of it is taken. A full channel fails. -/
def writeAll (bytes : Bytes) (o : Outlet) : Except Fault Unit × Outlet :=
  if bytes = [] then (.ok (), o)
  else if o.room = 0 then (.error (.channel .sink), { o with calls := o.calls + 1 })
  else
    writeAll (bytes.drop (o.taken bytes))
      ⟨o.held ++ bytes.take (o.taken bytes), o.room - o.taken bytes, o.grant, o.calls + 1⟩
termination_by bytes.length
decreasing_by
  have := List.length_pos_iff.mpr ‹_›
  rw [List.length_drop, taken]
  omega

/-- The pieces do not show in what is held in the end. -/
theorem toSink_writeAll (bytes : Bytes) (o : Outlet) :
    ((o.writeAll bytes).1, (o.writeAll bytes).2.toSink) = o.toSink.write bytes := by
  fun_induction writeAll bytes o with
  | case1 o =>
    rw [toSink, Sink.write_some]
    simp
  | case2 bytes o hbytes hroom =>
    have hpos := List.length_pos_iff.mpr hbytes
    rw [toSink, toSink, Sink.write_some, hroom, if_neg (by omega)]
    simp
  | case3 bytes o hbytes hroom ih =>
    rw [ih]
    exact Sink.write_drop (by rw [taken]; omega) (by rw [taken]; omega)

end Outlet

/-! ### Calls -/

/-- A frame begins with its length. -/
theorem Frame.encode_ne_nil {s : FrameSettings} {v : Version} {p : Packet} {frame : Bytes}
    (h : encode s v p = .ok frame) : frame ≠ [] := by
  obtain ⟨_, _, body, -, -, -, -, rfl⟩ := encode_eq_ok h
  simp [VarInt.ofLength, VarInt.encode_ne_nil]

/-- A tag begins with its kind. -/
theorem Nbt.Root.encode_ne_nil {header : Header} {root : Root} {form : Bytes}
    (h : root.encode header = .ok form) : form ≠ [] := by
  unfold encode at h
  split at h
  · obtain rfl := Except.ok.inj h
    exact List.cons_ne_nil _ _
  dsimp only at h
  split at h
  · contradiction
  · contradiction
  · rename_i heading payload hheading hpayload
    obtain ⟨kind, name, hkind, -, rfl⟩ := Pieces.bytes_cons_eq_ok_iff.mp hheading
    obtain rfl := Except.ok.inj hkind
    obtain rfl := Except.ok.inj h
    exact List.cons_ne_nil _ _

/-- A call that writes a packet or a tag. -/
inductive Writing where
  | packet (s : FrameSettings) (v : Version) (p : Packet)
  | tag (header : Nbt.Header) (root : Nbt.Root)

namespace Writing

/-- The bytes that a call has to write. -/
def form : Writing → Except Fault Bytes
  | .packet s v p => Frame.encode s v p
  | .tag header root => root.encode header

def perform : Writing → Sink → Except Fault Unit × Sink
  | .packet s v p => Sink.writePacket s v p
  | .tag header root => root.write header

def run (calls : List Writing) (sink : Sink) : Sink :=
  calls.foldl (fun sink call => (call.perform sink).2) sink

/-- A call on a channel that takes pieces. -/
def offer (call : Writing) (o : Outlet) : Except Fault Unit × Outlet :=
  match call.form with
  | .error fault => (.error fault, o)
  | .ok form => o.writeAll form

def offerAll (calls : List Writing) (o : Outlet) : Outlet :=
  calls.foldl (fun o call => (call.offer o).2) o

/-- The forms of those calls that have one, in order. -/
def forms (calls : List Writing) : Bytes :=
  calls.flatMap fun call =>
    match call.form with
    | .error _ => []
    | .ok form => form

variable {call : Writing} {fault : Fault} {form : Bytes}

theorem perform_of_error (h : call.form = .error fault) (sink : Sink) :
    call.perform sink = (.error fault, sink) := by
  cases call with
  | packet s v p => rw [perform, Sink.writePacket, show Frame.encode s v p = .error fault from h]
  | tag header root => rw [perform, Nbt.Root.write, show root.encode header = .error fault from h]

theorem perform_of_ok (h : call.form = .ok form) (sink : Sink) :
    call.perform sink = sink.write form := by
  cases call with
  | packet s v p => rw [perform, Sink.writePacket, show Frame.encode s v p = .ok form from h]
  | tag header root => rw [perform, Nbt.Root.write, show root.encode header = .ok form from h]

theorem form_ne_nil (h : call.form = .ok form) : form ≠ [] := by
  cases call with
  | packet s v p => exact Frame.encode_ne_nil h
  | tag header root => exact Nbt.Root.encode_ne_nil h

theorem forms_concat_of_error (h : call.form = .error fault) (earlier : List Writing) :
    forms (earlier ++ [call]) = forms earlier := by
  simp [forms, h]

theorem forms_concat_of_ok (h : call.form = .ok form) (earlier : List Writing) :
    forms (earlier ++ [call]) = forms earlier ++ form := by
  simp [forms, h]

theorem toSink_offer (call : Writing) (o : Outlet) :
    ((call.offer o).1, (call.offer o).2.toSink) = call.perform o.toSink := by
  rcases h : call.form with fault | form
  · rw [perform_of_error h, offer, h]
  · rw [perform_of_ok h, offer, h]
    exact o.toSink_writeAll form

theorem toSink_offerAll (calls : List Writing) (o : Outlet) :
    (offerAll calls o).toSink = run calls o.toSink := by
  induction calls generalizing o with
  | nil => rfl
  | cons call calls ih =>
    rw [offerAll, run, List.foldl_cons, List.foldl_cons, ← toSink_offer]
    exact ih _

/-! ### Runs -/

theorem perform_given (limit : Nat) (earlier : List Writing) (call : Writing) :
    (call.perform (.given limit (forms earlier))).2 = .given limit (forms (earlier ++ [call])) := by
  rcases h : call.form with fault | form
  · rw [perform_of_error h, forms_concat_of_error h]
  · rw [perform_of_ok h, forms_concat_of_ok h, Sink.write_given]

theorem run_limited (limit : Nat) (calls : List Writing) :
    run calls (.limited limit) = .given limit (forms calls) := by
  induction calls using List.reverseRecOn with
  | nil => simp [run, Sink.limited, Sink.given, forms]
  | append_singleton earlier call ih =>
    rw [run, List.foldl_append, List.foldl_cons, List.foldl_nil, ← run, ih, perform_given]

/-- What fits behind the forms of the earlier calls is written as a whole. No form is empty, so none
fits once the sink has run full. -/
theorem perform_given_eq_ok_iff (limit : Nat) (earlier : List Writing) (call : Writing) :
    (call.perform (.given limit (forms earlier))).1 = .ok () ↔
      ∃ form, call.form = .ok form ∧ (forms earlier).length + form.length ≤ limit := by
  rcases h : call.form with fault | form
  · simp [perform_of_error h]
  have hpos := List.length_pos_iff.mpr (form_ne_nil h)
  rw [perform_of_ok h, Sink.write_given]
  by_cases hroom : form.length ≤ limit - (forms earlier).length
  · exact iff_of_true (if_pos hroom) ⟨form, rfl, by omega⟩
  · rw [if_neg hroom]
    refine iff_of_false (by simp) ?_
    rintro ⟨_, hform, hfits⟩
    obtain rfl := Except.ok.inj hform
    omega

/-- A sink that accepts a number of bytes in all, behind any calls, holds the first of the bytes of
the forms that these calls have. The next call succeeds exactly if it has a form and the whole form
still fits; without a form it leaves the sink alone. A channel that takes its bytes in pieces holds
the same and gives the same answers. -/
theorem run_holds_first_bytes (limit : Nat) (earlier : List Writing) (call : Writing) :
    let sink := run earlier (.limited limit)
    let after := call.perform sink
    sink.held = (forms earlier).take limit ∧
    after.2.held = (forms (earlier ++ [call])).take limit ∧
    (after.1 = .ok () ↔
      ∃ form, call.form = .ok form ∧ (forms earlier).length + form.length ≤ limit) ∧
    (∀ fault, call.form = .error fault → after = (.error fault, sink)) ∧
    ∀ grant, let outlet := offerAll earlier (.limited limit grant)
      outlet.toSink = sink ∧ ((call.offer outlet).1, (call.offer outlet).2.toSink) = after := by
  intro sink after
  have hsink : sink = .given limit (forms earlier) := run_limited limit earlier
  refine ⟨?_, ?_, ?_, fun fault h => perform_of_error h sink, fun grant => ?_⟩
  · rw [hsink, Sink.given]
  · rw [show after = call.perform sink from rfl, hsink, perform_given, Sink.given]
  · rw [show after = call.perform sink from rfl, hsink]
    exact perform_given_eq_ok_iff limit earlier call
  · have houtlet : (offerAll earlier (.limited limit grant)).toSink = sink :=
      toSink_offerAll earlier _
    exact ⟨houtlet, by rw [toSink_offer, houtlet]⟩

end Writing

end MinecraftWire
