import MinecraftWire.Endpoint

/-! A client and a server that speak one version. What one side sends waits in the inbox of the
other. -/

namespace MinecraftWire

inductive Party where
  | client | server
  deriving DecidableEq, Repr

namespace Party

def other : Party → Party
  | client => server
  | server => client

/-- The direction of the packets a party reads. -/
def inbound : Party → Direction
  | client => .clientbound
  | server => .serverbound

end Party

/-- An endpoint and the bytes that wait for it. -/
structure Peer where
  endpoint : Endpoint
  inbox : Bytes

structure Link where
  client : Peer
  server : Peer

namespace Link

def peer (link : Link) : Party → Peer
  | .client => link.client
  | .server => link.server

/-- A fresh connection: both sides share the table of one registry. -/
def create (v : Version) (r : Registry) : Registry.Answer Link :=
  let client := Endpoint.create v Party.client.inbound r
  let server := Endpoint.create v Party.server.inbound client.registry
  ⟨do
    let c ← client.outcome
    let s ← server.outcome
    return ⟨⟨c, []⟩, ⟨s, []⟩⟩,
    client.warnings ++ server.warnings, server.registry⟩

def update (party : Party) (f : Peer → Peer) (link : Link) : Link :=
  match party with
  | .client => { link with client := f link.client }
  | .server => { link with server := f link.server }

def endpoint (party : Party) (link : Link) : Endpoint :=
  (link.peer party).endpoint

def inbox (party : Party) (link : Link) : Bytes :=
  (link.peer party).inbox

/-- Change the state or settings of a party. -/
def adjust (party : Party) (f : Endpoint → Endpoint) (link : Link) : Link :=
  link.update party fun peer => { peer with endpoint := f peer.endpoint }

/-- Bytes arrive at a party. -/
def feed (party : Party) (bytes : Bytes) (link : Link) : Link :=
  link.update party fun peer => { peer with inbox := peer.inbox ++ bytes }

/-- A party takes a frame out of its inbox. -/
def decode (party : Party) (link : Link) : Except Fault (Option Packet) × Link :=
  match (link.endpoint party).decode (link.inbox party) with
  | (outcome, inbox) => (outcome, link.update party fun peer => { peer with inbox })

/-- A party sends a packet; its frame arrives at the other party. -/
def encode (party : Party) (p : Packet) (link : Link) : Except Fault Bytes × Link :=
  match (link.endpoint party).encode p [] with
  | (.error fault, _) => (.error fault, link)
  | (.ok (), frame) => (.ok frame, link.feed party.other frame)

end Link

end MinecraftWire
