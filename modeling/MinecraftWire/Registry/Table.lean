import MinecraftWire.Packet.Body

/-! Packet tables: the version whose layouts a version uses, and which packet types it knows in each
state and direction. -/

namespace MinecraftWire

/-- The resolution of a version, if there is one. -/
def Version.resolve (v : Version) : Except Fault Resolution :=
  match v.resolve? with
  | some resolution => .ok resolution
  | none => .error (.unsupportedVersion v)

/-- A kind of packet in one version: where it is valid, under which id, and how it is read. -/
structure PacketType where
  name : String
  id : Int32
  state : ConnectionState
  directions : List Direction
  body : Version → Reader Packet

namespace PacketType

def ofKind? (v : Version) (kind : PacketKind) : Option PacketType :=
  (kind.id? v).map fun id => ⟨kind.name, id, kind.state, kind.directions, fun v => kind.body v⟩

/-- The packet types that a version declares. -/
def declared (v : Version) : List PacketType :=
  PacketKind.all.filterMap (ofKind? v)

/-- The text that describes a packet type. -/
def describe (t : PacketType) : String :=
  "PacketType \x7b name: " ++ Quoted.quote t.name ++ ", id: 0x" ++
    Hex.padded 2 t.id.toUInt32.toNat ++ ", state: " ++ t.state.title ++ ", directions: [" ++
    String.intercalate ", " (t.directions.map Direction.title) ++ "] \x7d"

end PacketType

/-- The packet types of one state and direction. -/
structure PacketSet where
  version : Version
  state : ConnectionState
  direction : Direction
  types : List PacketType

namespace PacketSet

def get? (id : Int32) (set : PacketSet) : Option PacketType :=
  set.types.find? (·.id == id)

def lookup (id : Int32) (set : PacketSet) : Except Fault PacketType :=
  match set.get? id with
  | some t => .ok t
  | none => .error (.unknownPacket id set.state set.direction set.version)

/-- The packet types by ascending id. -/
def sorted (set : PacketSet) : List PacketType :=
  set.types.mergeSort fun a b => a.id ≤ b.id

end PacketSet

/-- The packet types of a version, each with a direction it travels in, in order of registration. -/
structure PacketTable where
  version : Version
  entries : List (Direction × PacketType)

namespace PacketTable

/-- The entry that holds a packet type's id in its state and in the given direction. -/
def holder? (entries : List (Direction × PacketType)) (d : Direction) (t : PacketType) :
    Option PacketType :=
  (entries.find? fun e => e.1 == d && e.2.state == t.state && e.2.id == t.id).map (·.2)

/-- Register a packet type in the given directions. -/
def register (t : PacketType) : List Direction → List (Direction × PacketType) →
    Except Fault (List (Direction × PacketType))
  | [], entries => .ok entries
  | d :: ds, entries =>
    match holder? entries d t with
    | some first => .error (.duplicatePacket t.id t.state d first.name t.name)
    | none => register t ds (entries ++ [(d, t)])

def registerAll : List PacketType → List (Direction × PacketType) →
    Except Fault (List (Direction × PacketType))
  | [], entries => .ok entries
  | t :: ts, entries =>
    match register t t.directions entries with
    | .error fault => .error fault
    | .ok entries => registerAll ts entries

/-- The table of the given packet types. No two may share an id, a state and a direction. -/
def ofTypes (v : Version) (types : List PacketType) : Except Fault PacketTable :=
  (registerAll types []).map (⟨v, ·⟩)

def build (v : Version) : Except Fault PacketTable :=
  ofTypes v (PacketType.declared v)

def set (state : ConnectionState) (direction : Direction) (table : PacketTable) : PacketSet :=
  ⟨table.version, state, direction,
    (table.entries.filter fun e => e.1 == direction && e.2.state == state).map (·.2)⟩

end PacketTable

end MinecraftWire
