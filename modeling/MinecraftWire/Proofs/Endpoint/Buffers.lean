import MinecraftWire.Proofs.Frame.Layout
import MinecraftWire.Proofs.Inbox
import MinecraftWire.Proofs.Link

/-! What an endpoint does to the two buffers it works on, in any run. A packet that can be encoded is
appended to the outbox as a whole frame; a frame is taken out of the inbox as a whole, whether or not
it can be read; anything else leaves both as they are. The endpoint keeps the packets it can read and
chooses them anew with its state, so that they are always those of its state. -/

namespace MinecraftWire

open VarInt (Announces)

/-! ### Frames at the front of an inbox -/

/-- The inbox begins with a whole frame: a length that a frame may have, in any of its forms, and as
many bytes as it announces. -/
structure Frame.Front (s : FrameSettings) (inbox length body rest : Bytes) : Prop where
  inbox_eq : inbox = length ++ (body ++ rest)
  announces : Announces length body.length
  pos : 1 ≤ body.length
  le : body.length ≤ s.maxFrameLength

namespace Endpoint

/-- What decoding finds in an inbox, and what it leaves of it. -/
inductive Decodes (e : Endpoint) (inbox : Bytes) : Except Fault (Option Packet) → Bytes → Prop where
  | waits (h : e.Waits inbox) : e.Decodes inbox (.ok none) inbox
  | refused {fault : Fault} (h : e.lengthFault? inbox = some fault) :
    e.Decodes inbox (.error fault) inbox
  | frame {length body rest : Bytes} (h : Frame.Front e.settings inbox length body rest) :
    e.Decodes inbox ((Frame.decode e.settings e.packets body).map some) rest

variable {e : Endpoint} {inbox length body rest : Bytes} {outcome : Except Fault (Option Packet)}

theorem decode_of_waits (h : e.Waits inbox) : e.decode inbox = (.ok none, inbox) := by
  rcases e.answers inbox with ⟨-, hdecode, -⟩ | ⟨hnot, -⟩ | ⟨hnot, -⟩
  · exact hdecode
  · exact absurd h hnot
  · exact absurd h hnot

theorem decode_of_front (h : Frame.Front e.settings inbox length body rest) :
    e.decode inbox = ((Frame.decode e.settings e.packets body).map some, rest) := by
  obtain ⟨rfl, ⟨v, hform, hv⟩, hpos, hle⟩ := h
  have hnat : v.toInt.toNat = body.length := by omega
  have hbound : ¬ (v < 1 ∨ e.settings.maxFrameLength < v.toInt.toNat) := by
    rw [Int32.lt_iff_toInt_lt, show (1 : Int32).toInt = 1 from rfl]
    omega
  rw [decode, Frame.poll, VarInt.peek_of_isForm hform]
  dsimp only
  rw [if_neg hbound, hnat, if_neg (by simp only [List.length_append]; omega), List.drop_left,
    List.splitAt_eq, List.take_left, List.drop_left]

/-- An inbox in which there is nothing to wait for and nothing wrong with the length. -/
theorem exists_front (hwaits : ¬ e.Waits inbox) (hlength : e.lengthFault? inbox = none) :
    ∃ length body rest, Frame.Front e.settings inbox length body rest := by
  rcases hpeek : VarInt.peek inbox with fault | _ | ⟨v, taken⟩
  · rw [lengthFault?, hpeek] at hlength
    contradiction
  · exact absurd (waits_of_peek_none hpeek) hwaits
  have hbound : ¬ (v < 1 ∨ e.settings.maxFrameLength < v.toInt.toNat) := fun hbound => by
    rw [lengthFault?, hpeek] at hlength
    dsimp only at hlength
    rw [if_pos hbound] at hlength
    contradiction
  obtain ⟨hlow, hhigh⟩ := not_or.mp hbound
  have hwhole : taken + v.toInt.toNat ≤ inbox.length := by
    rw [waits_iff_of_peek_some hpeek, ← Int32.not_lt] at hwaits
    exact Nat.not_lt.mp fun hshort => hwaits ⟨hlow, by omega, hshort⟩
  obtain ⟨form, behind, rfl, hform, rfl⟩ := ((VarInt.peeked inbox).some_iff v taken).mp hpeek
  rw [List.length_append] at hwhole
  rw [Int32.lt_iff_toInt_lt, show (1 : Int32).toInt = 1 from rfl] at hlow
  have hbody : (behind.take v.toInt.toNat).length = v.toInt.toNat := by
    rw [List.length_take]
    omega
  refine ⟨form, behind.take v.toInt.toNat, behind.drop v.toInt.toNat, ?_, ⟨v, hform, ?_⟩, ?_, ?_⟩
  · rw [List.take_append_drop]
  · omega
  · omega
  · omega

theorem decode_of_decodes (h : e.Decodes inbox outcome rest) : e.decode inbox = (outcome, rest) := by
  cases h with
  | waits h => exact decode_of_waits h
  | refused h => exact decode_refuses_iff.mpr h
  | frame h => exact decode_of_front h

theorem exists_decodes (e : Endpoint) (inbox : Bytes) : ∃ outcome rest, e.Decodes inbox outcome rest := by
  by_cases hwaits : e.Waits inbox
  · exact ⟨_, _, .waits hwaits⟩
  rcases hlength : e.lengthFault? inbox with _ | fault
  · obtain ⟨length, body, rest, hfront⟩ := exists_front hwaits hlength
    exact ⟨_, _, .frame hfront⟩
  · exact ⟨_, _, .refused hlength⟩

theorem decode_iff : e.decode inbox = (outcome, rest) ↔ e.Decodes inbox outcome rest := by
  refine ⟨fun h => ?_, decode_of_decodes⟩
  obtain ⟨outcome', rest', hdecodes⟩ := e.exists_decodes inbox
  rw [decode_of_decodes hdecodes] at h
  obtain ⟨rfl, rfl⟩ := Prod.mk.inj h
  exact hdecodes

end Endpoint

/-- A version gives the frames that its effective version gives: to resolve it again changes nothing. -/
theorem Frame.encode_effective {v : Version} {resolution : Version.Resolution}
    (hv : v.resolve = .ok resolution) (s : FrameSettings) (p : Packet) :
    encode s resolution.effective p = encode s v p := by
  simp only [encode, hv, Version.resolve_effective hv, bind, Except.bind]

/-! ### Runs -/

/-- An endpoint with the packets it keeps for its state and the buffers it works on. -/
structure Station extends Peer where
  kept : PacketSet
  outbox : Bytes

namespace Station

/-- What can happen to a station: it acts, or its owner hands it other buffers. -/
inductive Step where
  | act (action : Action)
  | handOver (inbox outbox : Bytes)

/-- What a step answers. -/
inductive Reply where
  | decoded (outcome : Except Fault (Option Packet))
  | encoded (outcome : Except Fault Unit)
  | done
  deriving DecidableEq

def start (e : Endpoint) : Station :=
  ⟨⟨e, []⟩, e.packets, []⟩

def decode (s : Station) : Except Fault (Option Packet) × Station :=
  let (outcome, inbox) := Frame.poll s.endpoint.settings s.kept s.inbox
  (outcome, { s with inbox })

def encode (p : Packet) (s : Station) : Except Fault Unit × Station :=
  let (outcome, outbox) := s.endpoint.encode p s.outbox
  (outcome, { s with outbox })

/-- Set the state and choose the packets to keep for it. -/
def setState (state : ConnectionState) (s : Station) : Station :=
  { s with endpoint := s.endpoint.setState state,
           kept := s.endpoint.table.set state s.endpoint.inbound }

def perform (s : Station) : Step → Reply × Station
  | .act .decode => (.decoded s.decode.1, s.decode.2)
  | .act (.encode p) => (.encoded (s.encode p).1, (s.encode p).2)
  | .act (.setState state) => (.done, s.setState state)
  | .act (.setCompression threshold) =>
    (.done, { s with endpoint := s.endpoint.setCompression threshold })
  | .act (.withSettings settings) => (.done, { s with endpoint := s.endpoint.withSettings settings })
  | .handOver inbox outbox => (.done, { s with inbox, outbox })

def run (s : Station) : List Step → List Reply × Station
  | [] => ([], s)
  | step :: steps =>
    let (reply, s) := s.perform step
    let (replies, s) := s.run steps
    (reply :: replies, s)

namespace Step

/-- The state behind a step. -/
def state : Step → ConnectionState → ConnectionState
  | .act (.setState state), _ => state
  | _, state => state

/-- The settings behind a step. -/
def settings : Step → FrameSettings → FrameSettings
  | .act (.setCompression threshold), settings => { settings with threshold }
  | .act (.withSettings settings), _ => settings
  | _, settings => settings

/-- The state of a new endpoint after some steps. -/
def stateAfter (steps : List Step) : ConnectionState :=
  steps.foldl (fun state step => step.state state) .handshaking

/-- The settings of a new endpoint after some steps. -/
def settingsAfter (steps : List Step) : FrameSettings :=
  steps.foldl (fun settings step => step.settings settings) .uncompressed

end Step

variable {s : Station}

/-- A step leaves the table and the direction alone, and only those that set them change the state
and the settings. -/
theorem endpoint_perform (s : Station) (step : Step) : (s.perform step).2.endpoint =
    ⟨s.endpoint.table, s.endpoint.inbound, step.state s.endpoint.state,
      step.settings s.endpoint.settings⟩ := by
  rcases step with (p | _ | state | threshold | settings) | ⟨inbox, outbox⟩ <;> rfl

theorem kept_perform (h : s.kept = s.endpoint.packets) (step : Step) :
    (s.perform step).2.kept = (s.perform step).2.endpoint.packets := by
  rcases step with (p | _ | state | threshold | settings) | ⟨inbox, outbox⟩
  case act.setState => rfl
  all_goals exact h

theorem endpoint_run (s : Station) (steps : List Step) : (s.run steps).2.endpoint =
    ⟨s.endpoint.table, s.endpoint.inbound,
      steps.foldl (fun state step => step.state state) s.endpoint.state,
      steps.foldl (fun settings step => step.settings settings) s.endpoint.settings⟩ := by
  induction steps generalizing s with
  | nil => rfl
  | cons step steps ih =>
    have hlater := ih (s.perform step).2
    rw [endpoint_perform] at hlater
    exact hlater

theorem kept_run (h : s.kept = s.endpoint.packets) (steps : List Step) :
    (s.run steps).2.kept = (s.run steps).2.endpoint.packets := by
  induction steps generalizing s with
  | nil => exact h
  | cons step steps ih => exact ih (kept_perform h step)

/-- While a station keeps the packets of its state, it decodes as its endpoint does. -/
theorem decode_eq (h : s.kept = s.endpoint.packets) :
    s.decode = ((s.endpoint.decode s.inbox).1, { s with inbox := (s.endpoint.decode s.inbox).2 }) := by
  rw [decode, h]
  rfl

theorem decode_iff (h : s.kept = s.endpoint.packets) {outcome : Except Fault (Option Packet)}
    {after : Station} : s.decode = (outcome, after) ↔
      ∃ rest, s.endpoint.Decodes s.inbox outcome rest ∧ after = { s with inbox := rest } := by
  rw [decode_eq h, Prod.mk.injEq]
  constructor
  · rintro ⟨rfl, rfl⟩
    exact ⟨_, Endpoint.decode_iff.mp rfl, rfl⟩
  · rintro ⟨rest, hdecodes, rfl⟩
    rw [Endpoint.decode_of_decodes hdecodes]
    exact ⟨rfl, rfl⟩

/-- A packet is appended to the outbox as its frame in the version, or not at all. -/
theorem encode_cases {v : Version} {resolution : Version.Resolution} (hv : v.resolve = .ok resolution)
    (hversion : s.endpoint.version = resolution.effective) (p : Packet) :
    (∃ frame, Frame.encode s.endpoint.settings v p = .ok frame ∧
      s.encode p = (.ok (), { s with outbox := s.outbox ++ frame })) ∨
    ∃ fault, Frame.encode s.endpoint.settings v p = .error fault ∧ s.encode p = (.error fault, s) := by
  have hsame := Frame.encode_effective hv s.endpoint.settings p
  unfold encode Endpoint.encode
  rw [hversion, hsame]
  rcases Frame.encode s.endpoint.settings v p with fault | frame
  · exact .inr ⟨fault, rfl, rfl⟩
  · exact .inl ⟨frame, rfl, rfl⟩

/-- What follows a frame is answered as if the frame had not been there. -/
theorem run_decode_of_front (h : s.kept = s.endpoint.packets) {length body rest : Bytes}
    (hfront : Frame.Front s.endpoint.settings s.inbox length body rest) (later : List Step) :
    s.run (.act .decode :: later) =
      (.decoded ((Frame.decode s.endpoint.settings s.kept body).map some) ::
        (run { s with inbox := rest } later).1, (run { s with inbox := rest } later).2) := by
  have hdecode := (decode_iff h).mpr ⟨rest, .frame hfront, rfl⟩
  simp only [run, perform, hdecode, h]

/-- In any run of an endpoint, whatever buffers it is handed: its state and settings are those last
set, and it keeps the packets of its state; a packet is appended to the outbox as its frame in the
version the endpoint was created for, or the outbox stays as it is; the inbox stays as it is unless a
whole frame is taken out of it, and then all that follows goes as if the frame had not been there. -/
theorem run_changes_as_announced {v : Version} {d : Direction} {r : Registry} {e : Endpoint}
    (hr : r.Reachable) (he : (Endpoint.create v d r).outcome = .ok e) (steps : List Step) :
    let s := ((start e).run steps).2
    (v.Effective e.version ∧
      s.endpoint = ⟨e.table, d, Step.stateAfter steps, Step.settingsAfter steps⟩ ∧
      s.kept = e.table.set (Step.stateAfter steps) d) ∧
    (∀ p, (∃ frame, Frame.encode s.endpoint.settings v p = .ok frame ∧
        s.encode p = (.ok (), { s with outbox := s.outbox ++ frame })) ∨
      ∃ fault, Frame.encode s.endpoint.settings v p = .error fault ∧ s.encode p = (.error fault, s)) ∧
    (∀ outcome after, s.decode = (outcome, after) ↔
      ∃ rest, s.endpoint.Decodes s.inbox outcome rest ∧ after = { s with inbox := rest }) ∧
    ∀ length body rest later, Frame.Front s.endpoint.settings s.inbox length body rest →
      s.run (.act .decode :: later) =
        (.decoded ((Frame.decode s.endpoint.settings s.kept body).map some) ::
          (run { s with inbox := rest } later).1, (run { s with inbox := rest } later).2) := by
  intro s
  obtain ⟨resolution, table, hv, hbuild, rfl⟩ := Endpoint.create_eq_ok hr he
  have hversion := PacketTable.version_of_build hbuild
  have hendpoint : s.endpoint = ⟨table, d, Step.stateAfter steps, Step.settingsAfter steps⟩ :=
    endpoint_run _ steps
  have hkept : s.kept = s.endpoint.packets := kept_run rfl steps
  have heffective : v.Effective table.version :=
    Version.exists_resolve_iff.mp ⟨resolution, hv, hversion.symm⟩
  have hsversion : s.endpoint.version = resolution.effective := by
    rw [hendpoint]
    exact hversion
  refine ⟨⟨heffective, hendpoint, ?_⟩, encode_cases hv hsversion, fun outcome after => decode_iff hkept,
    fun length body rest later hfront => run_decode_of_front hkept hfront later⟩
  rw [hkept, hendpoint]
  rfl

/-- A version that has no layouts of its own, and a frame with an unknown id before a ping. -/
theorem run_changes_as_announced_past_unknown_id :
    let table : PacketTable := ⟨⟨757⟩, PacketTable.entriesOf (PacketType.declared ⟨757⟩)⟩
    let e : Endpoint := ⟨table, .serverbound, .handshaking, .uncompressed⟩
    let ping : Bytes := [9, 1, 0, 0, 0, 0, 0, 0, 0, 5]
    let s := ((start e).run [.act (.setState .status), .handOver ([1, 127] ++ ping) [7]]).2
    Registry.empty.Reachable ∧ (Endpoint.create ⟨758⟩ .serverbound .empty).outcome = .ok e ∧
      Frame.Front s.endpoint.settings s.inbox [1] [127] ping ∧
      (s.run [.act .decode, .act .decode]).1 =
        [.decoded (.error (.unknownPacket 127 .status .serverbound ⟨757⟩)),
          .decoded (.ok (some (.ping 5)))] ∧
      s.encode (.ping 5) = (.ok (), { s with outbox := 7 :: ping }) := by
  intro table e ping s
  have he : (Endpoint.create ⟨758⟩ .serverbound .empty).outcome = .ok e := rfl
  obtain ⟨-, hencode, -, hbehind⟩ := run_changes_as_announced .empty he
    [.act (.setState .status), .handOver ([1, 127] ++ ping) [7]]
  have hlength : VarInt.ofLength 1 = [1] := by decide +kernel
  have hfront : Frame.Front s.endpoint.settings s.inbox [1] [127] ping :=
    ⟨rfl, hlength ▸ VarInt.announces_ofLength (by decide), by decide, by decide⟩
  have hframe : Frame.encode s.endpoint.settings ⟨758⟩ (.ping 5) = .ok ping := by decide +kernel
  refine ⟨.empty, he, hfront, ?_, ?_⟩
  · rw [hbehind [1] [127] ping [.act .decode] hfront]
    decide +kernel
  · rcases hencode (.ping 5) with ⟨frame, hsome, happended⟩ | ⟨fault, hfault, -⟩
    · obtain rfl := Except.ok.inj (hframe.symm.trans hsome)
      exact happended
    · rw [hframe] at hfault
      contradiction

end Station

end MinecraftWire
