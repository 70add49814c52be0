import MinecraftWire.Packet.Basic
import MinecraftWire.Packet.UuidText
import MinecraftWire.Text.Field

/-! Packet bodies: how each version lays the fields of a packet out, writing and reading. Fields that
a version lacks are left out when writing and absent when reading. -/

namespace MinecraftWire

namespace Packet

/-- The longest player name. -/
def maxUsername : Nat := 16
def maxServerId : Nat := 20
def maxAddress : Nat := 255
/-- The length of a UUID as text. -/
def maxUuidText : Nat := 36

/-! ### Writing -/

def signingKeyPieces (key : SigningKey) : Pieces :=
  [.ok (FixedWidth.put key.expiresAt), Blob.encode key.publicKey, Blob.encode key.signature]

def propertyPieces (property : Property) : Pieces :=
  [Text.encode Text.maxCharacters property.name, Text.encode Text.maxCharacters property.value] ++
    Pieces.optional (fun s => [Text.encode Text.maxCharacters s]) property.signature

def propertyCount (n : Nat) : Except Fault Bytes :=
  if n < 2 ^ 31 then .ok (VarInt.ofLength n) else .error (.format .tooManyProperties)

def verificationPieces (v : Version) : Verification → Pieces
  | .token bytes =>
    (if v.hasSignedLogin then [.ok (FixedWidth.put true)] else []) ++ [Blob.encode bytes]
  | .signature salt bytes =>
    if v.hasSignedLogin then
      [.ok (FixedWidth.put false), .ok (FixedWidth.put salt), Blob.encode bytes]
    else [.error (.format (.noSignature v))]

/-- The pieces of a packet's body in a version. -/
def pieces (v : Version) : Packet → Pieces
  | handshake p =>
    [.ok (VarInt.encode p.protocolVersion), Text.encode maxAddress p.serverAddress,
      .ok (FixedWidth.put p.serverPort), .ok (VarInt.encode p.nextState.code)]
  | statusRequest => []
  | statusResponse json => [Text.encode Text.maxCharacters json]
  | ping payload => [.ok (FixedWidth.put payload)]
  | loginStart p =>
    [Text.encode maxUsername p.name] ++
      (if v.hasSignedLogin then Pieces.optional signingKeyPieces p.signingKey else []) ++
      (if v.hasLoginUuid then Pieces.optional (fun u => [.ok (FixedWidth.put u)]) p.uuid else [])
  | loginDisconnect reason => [Text.encode Text.maxCharacters reason]
  | encryptionRequest p =>
    [Text.encode maxServerId p.serverId, Blob.encode p.publicKey, Blob.encode p.verifyToken]
  | encryptionResponse p =>
    Blob.encode p.sharedSecret :: verificationPieces v p.verification
  | loginSuccess p =>
    [if v.hasBinaryUuid then .ok (FixedWidth.put p.uuid)
      else Text.encode maxUuidText (UuidText.format p.uuid),
      Text.encode maxUsername p.username] ++
      (if v.hasProperties then propertyCount p.properties.length ::
        p.properties.flatMap propertyPieces else [])
  | setCompression threshold => [.ok (VarInt.encode threshold)]
  | loginPluginRequest p =>
    [.ok (VarInt.encode p.messageId), Text.encode Text.maxCharacters p.channel, .ok p.data]
  | loginPluginResponse p =>
    .ok (VarInt.encode p.messageId) :: Pieces.optional (fun data => [.ok data]) p.data

/-- A packet's body in a version, if all of it can be written. -/
def body (v : Version) (p : Packet) : Except Fault Bytes :=
  (p.pieces v).bytes

end Packet

/-! ### Reading -/

namespace Reader

def signingKey : Reader SigningKey := do
  return ⟨← value Int64, ← blob, ← blob⟩

def property : Reader Property := do
  return ⟨← text Text.maxCharacters, ← text Text.maxCharacters,
    ← optional (text Text.maxCharacters)⟩

def handshake : Reader Handshake := do
  return ⟨← varInt, ← text Packet.maxAddress, ← value UInt16, ← lift (NextState.ofCode (← varInt))⟩

def loginStart (v : Version) : Reader LoginStart := do
  let name ← text Packet.maxUsername
  let key ← if v.hasSignedLogin then optional signingKey else pure none
  let uuid ← if v.hasLoginUuid then optional (value Uuid) else pure none
  return ⟨name, key, uuid⟩

def verification (v : Version) : Reader Verification := do
  let token ← if v.hasSignedLogin then value Bool else pure true
  if token then return .token (← blob) else return .signature (← value Int64) (← blob)

def properties : Reader (List Property) := do
  let count ← varInt
  if count < 0 then malformed (.negativePropertyCount count.toInt)
  else times count.toInt.toNat property

def loginSuccess (v : Version) : Reader LoginSuccess := do
  let uuid ← if v.hasBinaryUuid then value Uuid
    else lift (UuidText.parse (← text Packet.maxUuidText))
  let username ← text Packet.maxUsername
  let properties ← if v.hasProperties then properties else pure []
  return ⟨uuid, username, properties⟩

end Reader

open Reader in
/-- Read the body of a packet of the given kind in a version. -/
def PacketKind.body (v : Version) : PacketKind → Reader Packet
  | handshake => return .handshake (← Reader.handshake)
  | statusRequest => return .statusRequest
  | statusResponse => return .statusResponse (← text Text.maxCharacters)
  | ping => return .ping (← value Int64)
  | loginStart => return .loginStart (← Reader.loginStart v)
  | loginDisconnect => return .loginDisconnect (← text Text.maxCharacters)
  | encryptionRequest =>
    return .encryptionRequest ⟨← text Packet.maxServerId, ← blob, ← blob⟩
  | encryptionResponse => return .encryptionResponse ⟨← blob, ← verification v⟩
  | loginSuccess => return .loginSuccess (← Reader.loginSuccess v)
  | setCompression => return .setCompression (← varInt)
  | loginPluginRequest =>
    return .loginPluginRequest ⟨← varInt, ← text Text.maxCharacters, ← remaining⟩
  | loginPluginResponse => return .loginPluginResponse ⟨← varInt, ← optional remaining⟩

end MinecraftWire
