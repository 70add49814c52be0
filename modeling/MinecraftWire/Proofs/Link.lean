import Mathlib.Logic.Function.Basic
import MinecraftWire.Link
import MinecraftWire.Proofs.Endpoint
import MinecraftWire.Proofs.Frame

/-! Two parties that send each other packets. Either changes its state and its settings whenever it
likes, while frames written under the other's older settings, or for another state, are still in
flight. As long as each frame is taken out under settings that agree with those it was written under,
and in the state of its packet, every packet arrives once and in the order of sending. -/

namespace MinecraftWire

/-! ### Versions and frames -/

/-- An effective version has layouts of its own. -/
theorem Version.resolve_effective {v : Version} {resolution : Version.Resolution}
    (h : v.resolve = .ok resolution) :
    resolution.effective.resolve = .ok ⟨resolution.effective, resolution.effective, .exact⟩ := by
  have hsupported : resolution.effective.isSupported := by
    unfold resolve resolve? at h
    split at h
    on_goal 2 => simp at h
    rename_i found hfound
    obtain rfl := Except.ok.inj h
    split at hfound
    · rename_i hv
      obtain rfl := Option.some.inj hfound
      exact hv
    · obtain ⟨nearest, hnearest, rfl⟩ := Option.map_eq_some_iff.mp hfound
      exact List.elem_eq_true_of_mem (List.mem_reverse.mp (List.mem_of_find?_eq_some hnearest))
  rw [resolve, resolve?, if_pos hsupported]

/-- A table of the effective version reads the frame. -/
theorem Frame.takes_encode_of_build {s t : FrameSettings} {v : Version}
    {resolution : Version.Resolution} {table : PacketTable} {p : Packet} {frame : Bytes}
    {d : Direction} (hframe : s.maxFrameLength < 2 ^ 31) (hdata : s.maxDataLength < 2 ^ 31)
    (hagree : s.Agrees t) (hv : v.resolve = .ok resolution)
    (hbuild : PacketTable.build resolution.effective = .ok table) (hd : d ∈ p.kind.directions)
    (h : encode s v p = .ok frame) (rest : Bytes) :
    (Reader.packet t (table.set p.kind.state d)).Takes frame rest (p.erase resolution.effective) := by
  obtain ⟨_, payload, body, hv', hpayload, hbody, hlength, rfl⟩ := encode_eq_ok h
  rw [hv] at hv'
  obtain rfl := Except.ok.inj hv'
  obtain ⟨id, content, -, -, hcontent⟩ := payload_eq_ok hpayload
  have hread := decodePayload_payload (PacketTable.version_of_build hbuild)
    (fun id hid => PacketTable.lookup_set hbuild hid hd) hpayload
  obtain ⟨hne, hdecode⟩ := decode_envelope (table.set p.kind.state d) hdata hagree
    (by simp [hcontent, VarInt.encode_ne_nil]) hbody
  have hmax := hagree.maxFrameLength
  exact takes_frame (by omega) hne (by omega) (hdecode.trans hread)

instance (s t : FrameSettings) : Decidable (s.Agrees t) :=
  decidable_of_iff (t.maxFrameLength = s.maxFrameLength ∧ t.maxDataLength = s.maxDataLength ∧
      t.compressionEnabled = s.compressionEnabled)
    ⟨fun ⟨h₁, h₂, h₃⟩ => ⟨h₁, h₂, h₃⟩, fun ⟨h₁, h₂, h₃⟩ => ⟨h₁, h₂, h₃⟩⟩

/-- Limits that a length on the wire can express. -/
def FrameSettings.Bounded (s : FrameSettings) : Prop :=
  s.maxFrameLength < 2 ^ 31 ∧ s.maxDataLength < 2 ^ 31

instance (s : FrameSettings) : Decidable s.Bounded :=
  inferInstanceAs (Decidable (_ ∧ _))

theorem FrameSettings.bounded_uncompressed : uncompressed.Bounded := by
  decide

/-! ### Sessions -/

/-- What a party can do. -/
inductive Action where
  | encode (p : Packet)
  | decode
  | setState (state : ConnectionState)
  | setCompression (threshold : Int32)
  | withSettings (settings : FrameSettings)

/-- A packet that was sent, the settings of its sender at that time, and its frame. -/
structure Sent where
  packet : Packet
  settings : FrameSettings
  frame : Bytes

/-- Both parties, and what has been sent to each and received by each so far. -/
structure Session where
  link : Link
  sent : Party → List Sent
  received : Party → List Packet

/-- The party is ready for the packet: in its state, reading its direction, under settings that agree
with the sender's. -/
structure Endpoint.Receives (e : Endpoint) (m : Sent) : Prop where
  state : e.state = m.packet.kind.state
  inbound : e.inbound ∈ m.packet.kind.directions
  settings : m.settings.Agrees e.settings

instance (e : Endpoint) (m : Sent) : Decidable (e.Receives m) :=
  decidable_of_iff (e.state = m.packet.kind.state ∧ e.inbound ∈ m.packet.kind.directions ∧
      m.settings.Agrees e.settings)
    ⟨fun ⟨h₁, h₂, h₃⟩ => ⟨h₁, h₂, h₃⟩, fun ⟨h₁, h₂, h₃⟩ => ⟨h₁, h₂, h₃⟩⟩

namespace Session

/-- Two parties that have not said anything yet. -/
def start (link : Link) : Session :=
  ⟨link, fun _ => [], fun _ => []⟩

/-- What has been sent to a party and not yet received. -/
def waiting (c : Session) (party : Party) : List Sent :=
  (c.sent party).drop (c.received party).length

/-- What a party does. A packet that cannot be encoded is not sent. -/
def perform (c : Session) (party : Party) : Action → Session
  | .encode p =>
    match c.link.encode party p with
    | (.ok frame, link) =>
      let m : Sent := ⟨p, (c.link.endpoint party).settings, frame⟩
      { c with link, sent := Function.update c.sent party.other (c.sent party.other ++ [m]) }
    | (.error _, link) => { c with link }
  | .decode =>
    match c.link.decode party with
    | (.ok (some p), link) =>
      { c with link, received := Function.update c.received party (c.received party ++ [p]) }
    | (_, link) => { c with link }
  | .setState state => { c with link := c.link.adjust party (·.setState state) }
  | .setCompression threshold => { c with link := c.link.adjust party (·.setCompression threshold) }
  | .withSettings settings => { c with link := c.link.adjust party (·.withSettings settings) }

def run (c : Session) (steps : List (Party × Action)) : Session :=
  steps.foldl (fun c step => c.perform step.1 step.2) c

/-- What is asked of an action: who decodes is ready for the packet that comes first, and limits can be
expressed on the wire. -/
def Allows (c : Session) (party : Party) : Action → Prop
  | .decode => ∀ m ∈ (c.waiting party).head?, (c.link.endpoint party).Receives m
  | .withSettings settings => settings.Bounded
  | _ => True

instance (c : Session) (party : Party) : (action : Action) → Decidable (c.Allows party action)
  | .decode => inferInstanceAs (Decidable (∀ m ∈ (c.waiting party).head?, _))
  | .withSettings settings => inferInstanceAs (Decidable settings.Bounded)
  | .encode _ | .setState _ | .setCompression _ => inferInstanceAs (Decidable True)

/-- Each action is one that the session allows when it comes to it. -/
def Orderly (c : Session) : List (Party × Action) → Prop
  | [] => True
  | (party, action) :: steps => c.Allows party action ∧ (c.perform party action).Orderly steps

def decideOrderly (c : Session) : (steps : List (Party × Action)) → Decidable (c.Orderly steps)
  | [] => inferInstanceAs (Decidable True)
  | (party, action) :: steps =>
    have := (c.perform party action).decideOrderly steps
    inferInstanceAs (Decidable (_ ∧ _))

instance (c : Session) (steps : List (Party × Action)) : Decidable (c.Orderly steps) :=
  c.decideOrderly steps

end Session

/-! ### What an operation changes -/

/-- A new endpoint has the table of the version's effective version. -/
theorem Endpoint.create_eq_ok {v : Version} {d : Direction} {r : Registry} {e : Endpoint}
    (hr : r.Reachable) (h : (create v d r).outcome = .ok e) :
    ∃ resolution table, v.resolve = .ok resolution ∧
      PacketTable.build resolution.effective = .ok table ∧
      e = ⟨table, d, .handshaking, .uncompressed⟩ := by
  rcases hv : v.resolve with fault | resolution
  · simp [create, Registry.table, Registry.resolution, hv, Except.map] at h
  obtain ⟨published, houtcome, hbuild⟩ := hr.outcome_table hv
  rw [create, houtcome] at h
  exact ⟨resolution, published.table, rfl, hbuild, (Except.ok.inj h).symm⟩

namespace Link

variable (link : Link) (party q : Party)

@[simp] theorem endpoint_feed (bytes : Bytes) : (link.feed party bytes).endpoint q = link.endpoint q := by
  cases party <;> cases q <;> rfl

theorem inbox_feed (bytes : Bytes) : (link.feed party bytes).inbox q =
    if q = party then link.inbox q ++ bytes else link.inbox q := by
  cases party <;> cases q <;> rfl

@[simp] theorem inbox_adjust (f : Endpoint → Endpoint) :
    (link.adjust party f).inbox q = link.inbox q := by
  cases party <;> cases q <;> rfl

theorem endpoint_adjust (f : Endpoint → Endpoint) : (link.adjust party f).endpoint q =
    if q = party then f (link.endpoint q) else link.endpoint q := by
  cases party <;> cases q <;> rfl

variable {link party}

theorem encode_cases (link : Link) (party : Party) (p : Packet) :
    (∃ frame, Frame.encode (link.endpoint party).settings (link.endpoint party).version p = .ok frame ∧
      link.encode party p = (.ok frame, link.feed party.other frame)) ∨
    ∃ fault, link.encode party p = (.error fault, link) := by
  unfold encode Endpoint.encode
  rcases Frame.encode (link.endpoint party).settings (link.endpoint party).version p with fault | frame
  · exact .inr ⟨fault, rfl⟩
  · exact .inl ⟨frame, rfl, rfl⟩

/-- Decoding changes nothing but the party's inbox. -/
theorem decode_of_endpoint {outcome : Except Fault (Option Packet)} {rest : Bytes}
    (h : (link.endpoint party).decode (link.inbox party) = (outcome, rest)) :
    ∃ link', link.decode party = (outcome, link') ∧ (∀ q, link'.endpoint q = link.endpoint q) ∧
      ∀ q, link'.inbox q = if q = party then rest else link.inbox q := by
  refine ⟨_, by rw [decode, h], fun q => ?_, fun q => ?_⟩
  · cases party <;> cases q <;> rfl
  · cases party <;> cases q <;> rfl

/-- Both parties of a new link have the table of the version's effective version. -/
theorem create_eq_ok {v : Version} {r : Registry} (hr : r.Reachable)
    (h : (create v r).outcome = .ok link) :
    ∃ resolution table, v.resolve = .ok resolution ∧
      PacketTable.build resolution.effective = .ok table ∧
      link = ⟨⟨⟨table, .clientbound, .handshaking, .uncompressed⟩, []⟩,
        ⟨⟨table, .serverbound, .handshaking, .uncompressed⟩, []⟩⟩ := by
  rcases hclient : (Endpoint.create v .clientbound r).outcome with fault | client
  · simp [create, Party.inbound, hclient, bind, Except.bind] at h
  rcases hserver : (Endpoint.create v .serverbound (Endpoint.create v .clientbound r).registry).outcome
    with fault | server
  · simp [create, Party.inbound, hclient, hserver, bind, Except.bind] at h
  simp only [create, Party.inbound, hclient, hserver, bind, Except.bind, pure, Except.pure,
    Except.ok.injEq] at h
  obtain ⟨resolution, table, hv, hbuild, rfl⟩ := Endpoint.create_eq_ok hr hclient
  obtain ⟨resolution', table', hv', hbuild', rfl⟩ := Endpoint.create_eq_ok (hr.table v) hserver
  obtain rfl := Except.ok.inj (hv.symm.trans hv')
  obtain rfl := Except.ok.inj (hbuild.symm.trans hbuild')
  exact ⟨resolution, table, hv, hbuild, h.symm⟩

end Link

/-! ### One direction -/

/-- What has been sent one way, what has been received of it and what is in flight: the first packets
sent are received, and the frames of the others are in flight. -/
structure Delivers (w : Version) (sent : List Sent) (received : List Packet) (inFlight : Bytes) :
    Prop where
  encoded : ∀ m ∈ sent, m.settings.Bounded ∧ Frame.encode m.settings w m.packet = .ok m.frame
  received_eq : received = (sent.take received.length).map (·.packet.erase w)
  inFlight_eq : inFlight = (sent.drop received.length).flatMap (·.frame)

namespace Delivers

variable {w : Version} {sent : List Sent} {received : List Packet} {inFlight : Bytes} {m : Sent}

theorem nothing (w : Version) : Delivers w [] [] [] :=
  ⟨fun _ h => absurd h List.not_mem_nil, rfl, rfl⟩

theorem length_received (h : Delivers w sent received inFlight) : received.length ≤ sent.length := by
  have hlength := congrArg List.length h.received_eq
  rw [List.length_map, List.length_take] at hlength
  omega

theorem send (h : Delivers w sent received inFlight) (hbounded : m.settings.Bounded)
    (hframe : Frame.encode m.settings w m.packet = .ok m.frame) :
    Delivers w (sent ++ [m]) received (inFlight ++ m.frame) := by
  have hlength := h.length_received
  refine ⟨?_, ?_, ?_⟩
  · rw [List.forall_mem_append, List.forall_mem_singleton]
    exact ⟨h.encoded, hbounded, hframe⟩
  · rw [List.take_append_of_le_length hlength]
    exact h.received_eq
  · rw [List.drop_append_of_le_length hlength, List.flatMap_append, ← h.inFlight_eq,
      List.flatMap_singleton]

theorem receive (h : Delivers w sent received inFlight) {rest : List Sent}
    (hm : sent.drop received.length = m :: rest) :
    Delivers w sent (received ++ [m.packet.erase w]) (rest.flatMap (·.frame)) := by
  refine ⟨h.encoded, ?_, ?_⟩
  · rw [List.length_append, List.length_singleton, List.take_add, hm, List.map_append,
      ← h.received_eq]
    rfl
  · rw [List.length_append, List.length_singleton, ← List.drop_drop, hm]
    rfl

end Delivers

/-! ### Both directions -/

namespace Session

/-- Both parties speak the version `w`, with limits that can be expressed on the wire, and nothing is
lost, doubled or out of order on either way. -/
structure Faithful (w : Version) (c : Session) : Prop where
  table (party : Party) : PacketTable.build w = .ok (c.link.endpoint party).table
  bounded (party : Party) : (c.link.endpoint party).settings.Bounded
  delivers (party : Party) : Delivers w (c.sent party) (c.received party) (c.link.inbox party)

variable {w : Version} {c : Session} {party : Party}

/-- The first packet that waits is what decoding gives, if the party is ready for it. -/
theorem Faithful.decode_first (h : c.Faithful w) (hw : w.resolve = .ok ⟨w, w, .exact⟩) {m : Sent}
    {rest : List Sent} (hm : c.waiting party = m :: rest)
    (hready : (c.link.endpoint party).Receives m) :
    (c.link.endpoint party).decode (c.link.inbox party) =
      (.ok (some (m.packet.erase w)), rest.flatMap (·.frame)) := by
  have hmem : m ∈ c.sent party := List.mem_of_mem_drop (hm ▸ List.mem_cons_self)
  obtain ⟨⟨hframe, hdata⟩, hencode⟩ := (h.delivers party).encoded m hmem
  have htakes := Frame.takes_encode_of_build hframe hdata hready.settings hw (h.table party)
    hready.inbound hencode (rest.flatMap (·.frame))
  have hinbox : c.link.inbox party = m.frame ++ rest.flatMap (·.frame) := by
    rw [(h.delivers party).inFlight_eq, ← waiting, hm, List.flatMap_cons]
  rw [hinbox, Endpoint.decode_eq_packet_iff, Endpoint.packets, hready.state]
  exact htakes.run

/-- While nothing waits there is nothing to decode. -/
theorem Faithful.decode_none (h : c.Faithful w) (hnone : c.waiting party = []) :
    (c.link.endpoint party).decode (c.link.inbox party) = (.ok none, c.link.inbox party) := by
  have hinbox : c.link.inbox party = [] := by
    rw [(h.delivers party).inFlight_eq, ← waiting, hnone, List.flatMap_nil]
  rw [hinbox]
  rfl

/-! ### One action -/

theorem Faithful.of_endpoint_eq (h : c.Faithful w) {c' : Session}
    (hendpoint : ∀ q, c'.link.endpoint q = c.link.endpoint q)
    (hdelivers : ∀ q, Delivers w (c'.sent q) (c'.received q) (c'.link.inbox q)) : c'.Faithful w where
  table q := by rw [hendpoint]; exact h.table q
  bounded q := by rw [hendpoint]; exact h.bounded q
  delivers := hdelivers

theorem Faithful.encode (h : c.Faithful w) (party : Party) (p : Packet) :
    (c.perform party (.encode p)).Faithful w := by
  have hversion : (c.link.endpoint party).version = w := PacketTable.version_of_build (h.table party)
  rcases c.link.encode_cases party p with ⟨frame, hencode, hlink⟩ | ⟨fault, hlink⟩
  on_goal 2 => simpa only [perform, hlink] using h
  simp only [perform, hlink]
  refine h.of_endpoint_eq (fun q => Link.endpoint_feed _ _ _ _) fun q => ?_
  dsimp only
  rw [Link.inbox_feed]
  by_cases hq : q = party.other
  · subst hq
    rw [Function.update_self, if_pos rfl]
    rw [hversion] at hencode
    exact (h.delivers _).send (h.bounded party) hencode
  · rw [Function.update_of_ne hq, if_neg hq]
    exact h.delivers q

theorem Faithful.decode (h : c.Faithful w) (hw : w.resolve = .ok ⟨w, w, .exact⟩)
    (hallows : c.Allows party .decode) : (c.perform party .decode).Faithful w := by
  rcases hm : c.waiting party with _ | ⟨m, rest⟩
  · obtain ⟨link', hlink, hendpoint, hinbox⟩ := Link.decode_of_endpoint (h.decode_none hm)
    simp only [perform, hlink]
    refine h.of_endpoint_eq hendpoint fun q => ?_
    rw [hinbox, ite_eq_right_iff.mpr (by rintro rfl; rfl)]
    exact h.delivers q
  · have hready := hallows m (by rw [hm]; rfl)
    obtain ⟨link', hlink, hendpoint, hinbox⟩ := Link.decode_of_endpoint (h.decode_first hw hm hready)
    simp only [perform, hlink]
    refine h.of_endpoint_eq hendpoint fun q => ?_
    dsimp only
    rw [hinbox]
    by_cases hq : q = party
    · subst hq
      rw [Function.update_self, if_pos rfl]
      exact (h.delivers q).receive hm
    · rw [Function.update_of_ne hq, if_neg hq]
      exact h.delivers q

/-- A party that changes its state or settings keeps its table and touches no bytes. -/
theorem Faithful.adjust (h : c.Faithful w) (party : Party) {f : Endpoint → Endpoint}
    (htable : ∀ e, (f e).table = e.table) (hbounded : ∀ e, e.settings.Bounded → (f e).settings.Bounded) :
    Faithful w { c with link := c.link.adjust party f } := by
  refine ⟨fun q => ?_, fun q => ?_, fun q => by simpa using h.delivers q⟩
  · rw [Link.endpoint_adjust]
    split
    · rw [htable]
      exact h.table q
    · exact h.table q
  · rw [Link.endpoint_adjust]
    split
    · exact hbounded _ (h.bounded q)
    · exact h.bounded q

theorem Faithful.perform (h : c.Faithful w) (hw : w.resolve = .ok ⟨w, w, .exact⟩) (action : Action)
    (hallows : c.Allows party action) : (c.perform party action).Faithful w := by
  cases action with
  | encode p => exact h.encode party p
  | decode => exact h.decode hw hallows
  | setState state => exact h.adjust party (fun _ => rfl) fun _ hbounded => hbounded
  | setCompression threshold => exact h.adjust party (fun _ => rfl) fun _ hbounded => hbounded
  | withSettings settings => exact h.adjust party (fun _ => rfl) fun _ _ => hallows

/-! ### Whole runs -/

theorem Faithful.run (h : c.Faithful w) (hw : w.resolve = .ok ⟨w, w, .exact⟩)
    {steps : List (Party × Action)} (hsteps : c.Orderly steps) : (c.run steps).Faithful w := by
  induction steps generalizing c with
  | nil => exact h
  | cons step steps ih => exact ih (h.perform hw step.2 hsteps.1) hsteps.2

theorem faithful_start {v : Version} {r : Registry} {link : Link} (hr : r.Reachable)
    (hlink : (Link.create v r).outcome = .ok link) :
    ∃ resolution, v.resolve = .ok resolution ∧ (start link).Faithful resolution.effective := by
  obtain ⟨resolution, table, hv, hbuild, rfl⟩ := Link.create_eq_ok hr hlink
  refine ⟨resolution, hv, fun party => ?_, fun party => ?_, fun party => ?_⟩
  · cases party <;> exact hbuild
  · cases party <;> exact FrameSettings.bounded_uncompressed
  · cases party <;> exact .nothing _

/-- In every orderly session each party has received the first of the packets sent to it, in order,
each once and without the fields that the effective version lacks; its inbox holds the frames of the
others; and if it is ready for the next of them, decoding gives it. -/
theorem run_delivers {v : Version} {r : Registry} {link : Link} {steps : List (Party × Action)}
    (hr : r.Reachable) (hlink : (Link.create v r).outcome = .ok link)
    (hsteps : (start link).Orderly steps) :
    ∃ resolution, v.resolve = .ok resolution ∧ ∀ party,
      let c := (start link).run steps
      c.received party =
        ((c.sent party).take (c.received party).length).map (·.packet.erase resolution.effective) ∧
      c.link.inbox party = (c.waiting party).flatMap (·.frame) ∧
      ∀ m rest, c.waiting party = m :: rest → (c.link.endpoint party).Receives m →
        (c.perform party .decode).received party =
          c.received party ++ [m.packet.erase resolution.effective] := by
  obtain ⟨resolution, hv, hstart⟩ := faithful_start hr hlink
  have hw := Version.resolve_effective hv
  have hrun := hstart.run hw hsteps
  refine ⟨resolution, hv, fun party => ?_⟩
  have hdelivers := hrun.delivers party
  refine ⟨hdelivers.received_eq, hdelivers.inFlight_eq, fun m rest hm hready => ?_⟩
  obtain ⟨link', hlink', -, -⟩ := Link.decode_of_endpoint (hrun.decode_first hw hm hready)
  simp only [perform, hlink', Function.update_self]

/-- A server turns compression on and goes on sending before the client has seen any of it. The old
version has no place for properties. -/
theorem run_delivers_across_compression :
    let table : PacketTable := ⟨⟨47⟩, PacketTable.entriesOf (PacketType.declared ⟨47⟩)⟩
    let link : Link := ⟨⟨⟨table, .clientbound, .handshaking, .uncompressed⟩, []⟩,
      ⟨⟨table, .serverbound, .handshaking, .uncompressed⟩, []⟩⟩
    let property : Property := ⟨"textures", "", none⟩
    let steps : List (Party × Action) :=
      [(.server, .encode (.setCompression 256)), (.server, .setCompression 256),
        (.server, .encode (.loginSuccess ⟨7, "Steve", [property]⟩)), (.client, .setState .login),
        (.client, .decode), (.client, .setCompression 64), (.client, .decode), (.client, .decode),
        (.server, .encode (.loginDisconnect "bye"))]
    let c := (Session.start link).run steps
    (Session.start link).Orderly steps ∧
      c.received .client = [.setCompression 256, .loginSuccess ⟨7, "Steve", []⟩] ∧
      c.link.inbox .client = (c.waiting .client).flatMap (·.frame) ∧
      (c.waiting .client).map (·.packet) = [.loginDisconnect "bye"] := by
  intro table link property steps c
  have hlink : (Link.create ⟨47⟩ .empty).outcome = .ok link := rfl
  have hsteps : (Session.start link).Orderly steps := by decide +kernel
  have hclient : c.received .client = [.setCompression 256, .loginSuccess ⟨7, "Steve", []⟩] ∧
      (c.waiting .client).map (·.packet) = [.loginDisconnect "bye"] := by
    decide +kernel
  obtain ⟨resolution, -, hdelivered⟩ := run_delivers .empty hlink hsteps
  exact ⟨hsteps, hclient.1, (hdelivered .client).2.1, hclient.2⟩

end Session

end MinecraftWire
