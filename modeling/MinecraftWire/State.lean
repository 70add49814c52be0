/-! The phases of a connection and the two ways a packet travels. -/

namespace MinecraftWire

/-- The phase of a connection, which says what packet ids mean. -/
inductive ConnectionState where
  | handshaking | status | login | play
  deriving DecidableEq, Repr, Inhabited

namespace ConnectionState

def all : List ConnectionState := [handshaking, status, login, play]

def name : ConnectionState → String
  | handshaking => "handshaking"
  | status => "status"
  | login => "login"
  | play => "play"

/-- The name as messages write it. -/
def title : ConnectionState → String
  | handshaking => "Handshaking"
  | status => "Status"
  | login => "Login"
  | play => "Play"

end ConnectionState

inductive Direction where
  /-- From client to server. -/
  | serverbound
  /-- From server to client. -/
  | clientbound
  deriving DecidableEq, Repr, Inhabited

namespace Direction

def both : List Direction := [serverbound, clientbound]

def opposite : Direction → Direction
  | serverbound => clientbound
  | clientbound => serverbound

def name : Direction → String
  | serverbound => "serverbound"
  | clientbound => "clientbound"

/-- The name as messages write it. -/
def title : Direction → String
  | serverbound => "Serverbound"
  | clientbound => "Clientbound"

end Direction

end MinecraftWire
