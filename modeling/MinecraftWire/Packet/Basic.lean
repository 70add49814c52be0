import MinecraftWire.FixedWidth

/-! The packets of the handshaking, status and login phases. -/

namespace MinecraftWire

/-- The phase a handshake asks for. -/
inductive NextState where
  | status | login
  deriving DecidableEq, Repr

namespace NextState

def code : NextState → Int32
  | status => 1
  | login => 2

def ofCode (code : Int32) : Except Fault NextState :=
  if code = 1 then .ok status
  else if code = 2 then .ok login
  else .error (.format (.nextState code.toInt))

def state : NextState → ConnectionState
  | status => .status
  | login => .login

end NextState

structure Handshake where
  protocolVersion : Int32
  serverAddress : String
  serverPort : UInt16
  nextState : NextState
  deriving DecidableEq, Repr

/-- A key that signs chat messages. -/
structure SigningKey where
  expiresAt : Int64
  publicKey : Bytes
  signature : Bytes
  deriving DecidableEq, Repr

structure LoginStart where
  name : String
  signingKey : Option SigningKey
  uuid : Option Uuid
  deriving DecidableEq, Repr

structure EncryptionRequest where
  serverId : String
  publicKey : Bytes
  verifyToken : Bytes
  deriving DecidableEq, Repr

/-- How a client proves that it could read the verify token. -/
inductive Verification where
  /-- The token itself, encrypted. -/
  | token (bytes : Bytes)
  /-- A salted signature over the token. -/
  | signature (salt : Int64) (bytes : Bytes)
  deriving DecidableEq, Repr

structure EncryptionResponse where
  sharedSecret : Bytes
  verification : Verification
  deriving DecidableEq, Repr

/-- An entry of a player's profile. -/
structure Property where
  name : String
  value : String
  signature : Option String
  deriving DecidableEq, Repr

structure LoginSuccess where
  uuid : Uuid
  username : String
  properties : List Property
  deriving DecidableEq, Repr

structure LoginPluginRequest where
  messageId : Int32
  channel : String
  data : Bytes
  deriving DecidableEq, Repr

structure LoginPluginResponse where
  messageId : Int32
  /-- Absent when the client did not understand the request. -/
  data : Option Bytes
  deriving DecidableEq, Repr

inductive Packet where
  | handshake (p : Handshake)
  | statusRequest
  | statusResponse (json : String)
  | ping (payload : Int64)
  | loginStart (p : LoginStart)
  | loginDisconnect (reason : String)
  | encryptionRequest (p : EncryptionRequest)
  | encryptionResponse (p : EncryptionResponse)
  | loginSuccess (p : LoginSuccess)
  | setCompression (threshold : Int32)
  | loginPluginRequest (p : LoginPluginRequest)
  | loginPluginResponse (p : LoginPluginResponse)
  deriving DecidableEq, Repr

/-- The kinds of packets. -/
inductive PacketKind where
  | handshake | statusRequest | statusResponse | ping | loginStart | loginDisconnect
  | encryptionRequest | encryptionResponse | loginSuccess | setCompression | loginPluginRequest
  | loginPluginResponse
  deriving DecidableEq, Repr

namespace PacketKind

/-- Every kind, in the order in which packet tables list them. -/
def all : List PacketKind :=
  [handshake, statusRequest, statusResponse, ping, loginStart, loginDisconnect, encryptionRequest,
    encryptionResponse, loginSuccess, setCompression, loginPluginRequest, loginPluginResponse]

def name : PacketKind → String
  | handshake => "handshake"
  | statusRequest => "status_request"
  | statusResponse => "status_response"
  | ping => "ping"
  | loginStart => "login_start"
  | loginDisconnect => "login_disconnect"
  | encryptionRequest => "encryption_request"
  | encryptionResponse => "encryption_response"
  | loginSuccess => "login_success"
  | setCompression => "set_compression"
  | loginPluginRequest => "login_plugin_request"
  | loginPluginResponse => "login_plugin_response"

def state : PacketKind → ConnectionState
  | handshake => .handshaking
  | statusRequest | statusResponse | ping => .status
  | _ => .login

def directions : PacketKind → List Direction
  | handshake | statusRequest | loginStart | encryptionResponse | loginPluginResponse =>
    [.serverbound]
  | ping => Direction.both
  | _ => [.clientbound]

end PacketKind

/-! ### What versions have -/

namespace Version

/-- 1.13 brought the plugin messages of the login phase. -/
def hasPluginMessages (v : Version) : Bool := 393 ≤ v.number

/-- From 1.16 on a login success carries its UUID in binary. -/
def hasBinaryUuid (v : Version) : Bool := 735 ≤ v.number

/-- Chat signing keys were part of the login in 1.19 and 1.19.2 only. -/
def hasSignedLogin (v : Version) : Bool := 759 ≤ v.number ∧ v.number ≤ 760

/-- From 1.19.1 on a login start may carry the player's UUID. -/
def hasLoginUuid (v : Version) : Bool := 760 ≤ v.number

/-- From 1.19 on a login success carries the player's profile. -/
def hasProperties (v : Version) : Bool := 759 ≤ v.number

end Version

/-- The id of a kind of packet in its state; `none` in versions that lack it. -/
def PacketKind.id? (v : Version) : PacketKind → Option Int32
  | handshake | statusRequest | statusResponse | loginStart | loginDisconnect => some 0
  | ping | encryptionRequest | encryptionResponse => some 1
  | loginSuccess => some 2
  | setCompression => some 3
  | loginPluginRequest => if v.hasPluginMessages then some 4 else none
  | loginPluginResponse => if v.hasPluginMessages then some 2 else none

namespace Packet

def kind : Packet → PacketKind
  | handshake _ => .handshake
  | statusRequest => .statusRequest
  | statusResponse _ => .statusResponse
  | ping _ => .ping
  | loginStart _ => .loginStart
  | loginDisconnect _ => .loginDisconnect
  | encryptionRequest _ => .encryptionRequest
  | encryptionResponse _ => .encryptionResponse
  | loginSuccess _ => .loginSuccess
  | setCompression _ => .setCompression
  | loginPluginRequest _ => .loginPluginRequest
  | loginPluginResponse _ => .loginPluginResponse

def id (v : Version) (p : Packet) : Except Fault Int32 :=
  match p.kind.id? v with
  | some id => .ok id
  | none => .error (.format (.noPacket p.kind.name v))

end Packet

end MinecraftWire
