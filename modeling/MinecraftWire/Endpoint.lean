import MinecraftWire.Frame
import MinecraftWire.Registry.Cache

/-! One side of a connection: it takes frames out of a growing inbox and appends frames to an outbox.
Callers switch its state and compression as the packets that announce them go by. -/

namespace MinecraftWire

/-- Take one frame out of an inbox. Without a whole frame, or with a length that cannot be, the inbox
stays as it is; a whole frame is taken out even if it cannot be read. -/
def Frame.poll (s : FrameSettings) (set : PacketSet) (inbox : Bytes) :
    Except Fault (Option Packet) × Bytes :=
  match VarInt.peek inbox with
  | .error fault => (.error (.format (.varInt fault)), inbox)
  | .ok none => (.ok none, inbox)
  | .ok (some (length, taken)) =>
    if length < 1 ∨ s.maxFrameLength < length.toInt.toNat then
      (.error (.format (.inboxFrameLength length.toInt)), inbox)
    else if inbox.length < taken + length.toInt.toNat then (.ok none, inbox)
    else
      let (frame, rest) := (inbox.drop taken).splitAt length.toInt.toNat
      ((Frame.decode s set frame).map some, rest)

structure Endpoint where
  table : PacketTable
  inbound : Direction
  state : ConnectionState
  settings : FrameSettings

namespace Endpoint

/-- A side that reads `inbound` packets, in the first state and without compression. -/
def create (v : Version) (inbound : Direction) (r : Registry) : Registry.Answer Endpoint :=
  let answer := r.table v
  ⟨answer.outcome.map (⟨·.table, inbound, .handshaking, .uncompressed⟩), answer.warnings,
    answer.registry⟩

def version (e : Endpoint) : Version :=
  e.table.version

/-- The packets the endpoint can read now. -/
def packets (e : Endpoint) : PacketSet :=
  e.table.set e.state e.inbound

def withSettings (settings : FrameSettings) (e : Endpoint) : Endpoint :=
  { e with settings }

def setState (state : ConnectionState) (e : Endpoint) : Endpoint :=
  { e with state }

/-- Set the threshold; a negative one turns compression off. -/
def setCompression (threshold : Int32) (e : Endpoint) : Endpoint :=
  { e with settings := { e.settings with threshold } }

/-- Take one frame out of the inbox. -/
def decode (e : Endpoint) (inbox : Bytes) : Except Fault (Option Packet) × Bytes :=
  Frame.poll e.settings e.packets inbox

/-- Append a packet's frame to the outbox, if it can be encoded. -/
def encode (e : Endpoint) (p : Packet) (outbox : Bytes) : Except Fault Unit × Bytes :=
  match Frame.encode e.settings e.version p with
  | .error fault => (.error fault, outbox)
  | .ok frame => (.ok (), outbox ++ frame)

end Endpoint

end MinecraftWire
