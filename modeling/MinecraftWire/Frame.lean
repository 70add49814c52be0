import MinecraftWire.Compression
import MinecraftWire.Registry.Table

/-! Frames: a packet's id and body behind their length. With compression enabled the length of the
uncompressed payload stands between, or zero before a payload that is not compressed. -/

namespace MinecraftWire

structure FrameSettings where
  /-- Payloads above it are compressed; a negative one turns the compressed envelope off. -/
  threshold : Int32
  level : Nat
  maxFrameLength : Nat
  maxDataLength : Nat
  deriving DecidableEq, Repr

namespace FrameSettings

/-- The greatest length in three groups of seven bits. -/
def defaultMaxFrameLength : Nat := 2097151

/-- 8 MiB. -/
def defaultMaxDataLength : Nat := 8388608

def defaultLevel : Nat := 6

/-- Default limits, and no compression. -/
def uncompressed : FrameSettings :=
  ⟨-1, defaultLevel, defaultMaxFrameLength, defaultMaxDataLength⟩

def compressed (threshold : Int32) : FrameSettings :=
  { uncompressed with threshold }

def compressionEnabled (s : FrameSettings) : Bool :=
  0 ≤ s.threshold

/-- The length of a frame that may be read. -/
def checkFrameLength (s : FrameSettings) (length : Int32) : Except Fault Nat :=
  if length < 1 then .error (.format (.emptyFrame length.toInt))
  else if s.maxFrameLength < length.toInt.toNat then
    .error (.format (.frameLength length.toInt.toNat s.maxFrameLength))
  else .ok length.toInt.toNat

end FrameSettings

namespace Frame

/-! ### Writing -/

/-- A packet's id and body in a version taken as it is. -/
def payload (v : Version) (p : Packet) : Except Fault Bytes := do
  let id ← p.id v
  let body ← p.body v
  return VarInt.encode id ++ body

/-- What follows a frame's length. -/
def envelope (s : FrameSettings) (name : String) (payload : Bytes) : Except Fault Bytes :=
  if s.compressionEnabled then
    if s.maxDataLength < payload.length then
      .error (.format (.payloadLength name payload.length s.maxDataLength))
    else
      match Compression.compress? s.threshold s.level payload with
      | some compressed => .ok (VarInt.ofLength payload.length ++ compressed)
      | none => .ok (VarInt.encode 0 ++ payload)
  else .ok payload

/-- The whole frame of a packet, laid out as the effective version has it. -/
def encode (s : FrameSettings) (v : Version) (p : Packet) : Except Fault Bytes := do
  let resolution ← v.resolve
  let payload ← payload resolution.effective p
  let body ← envelope s p.kind.name payload
  if s.maxFrameLength < body.length then
    .error (.format (.frameBytes p.kind.name body.length s.maxFrameLength))
  else return VarInt.ofLength body.length ++ body

/-! ### Reading -/

/-- Read a packet from an id and body that hold nothing else. -/
def decodePayload (set : PacketSet) (payload : Bytes) : Except Fault Packet :=
  match Reader.varInt.run payload with
  | (.error fault, _) => .error fault
  | (.ok id, rest) =>
    match set.lookup id with
    | .error fault => .error fault
    | .ok type =>
      match (type.body set.version).run rest with
      | (.error fault, _) => .error fault
      | (.ok packet, []) => .ok packet
      | (.ok _, left) => .error (.format (.leftInFrame type.name left.length))

/-- The payload in a frame with the compressed envelope. -/
def openEnvelope (s : FrameSettings) (frame : Bytes) : Except Fault Bytes :=
  match Reader.varInt.run frame with
  | (.error fault, _) => .error fault
  | (.ok length, rest) =>
    if length < 0 then .error (.format (.negativeDataLength length.toInt))
    else if length = 0 then .ok rest
    else Compression.decompress s.maxDataLength length.toInt.toNat rest

/-- Read a packet from what follows a frame's length. -/
def decode (s : FrameSettings) (set : PacketSet) (frame : Bytes) : Except Fault Packet :=
  if s.compressionEnabled then (openEnvelope s frame).bind (decodePayload set)
  else decodePayload set frame

end Frame

/-- Read a frame and its packet from a channel. -/
def Reader.packet (s : FrameSettings) (set : PacketSet) : Reader Packet := do
  let length ← lift (s.checkFrameLength (← varInt))
  lift (Frame.decode s set (← exactly length))

/-- Write a packet's frame to a sink. A packet that cannot be encoded writes nothing. -/
def Sink.writePacket (s : FrameSettings) (v : Version) (p : Packet) (sink : Sink) :
    Except Fault Unit × Sink :=
  match Frame.encode s v p with
  | .error fault => (.error fault, sink)
  | .ok frame => sink.write frame

end MinecraftWire
