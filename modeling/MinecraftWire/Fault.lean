import MinecraftWire.Config.Problem
import MinecraftWire.Nbt.Kind
import MinecraftWire.Number.Decimal
import MinecraftWire.State
import MinecraftWire.Text.Quoted
import MinecraftWire.Text.Utf8
import MinecraftWire.VarInt

/-! Everything that can go wrong while encoding or decoding, by cause, and the one place where causes
are put into words. -/

namespace MinecraftWire

/-- An amount in a message about a range. -/
inductive Quantity where
  | number (n : Int)
  | characters (n : Nat)
  | bytes (n : Nat)
  | elements (n : Nat)
  | codePoint (n : Nat)
  | decimal (d : Decimal)
  deriving DecidableEq, Repr

def Quantity.text : Quantity → String
  | .number n => toString n
  | .characters n => toString n ++ " characters"
  | .bytes n => toString n ++ " bytes"
  | .elements n => toString n ++ " elements"
  | .codePoint n => "U+" ++ (Hex.padded 4 n).toUpper
  | .decimal d => d.positional

/-- A value outside the bounds of what it should be written as. -/
structure OutOfRange where
  kind : String
  value : Quantity
  minimum : Quantity
  maximum : Quantity
  deriving DecidableEq, Repr

/-- Malformed NBT, apart from breaches of the tree's own rules. -/
inductive Nbt.Malformation where
  | nesting
  | typeByte (b : UInt8)
  | stringLength (n : Int)
  | length (kind : TagKind) (n : Int)
  | endElements (n : Nat)
  | trailing (n : Nat)
  | notScalar (kind : TagKind)
  | namelessChild
  deriving DecidableEq, Repr

/-- A breach of the rules for lists and compounds. -/
inductive Nbt.Breach where
  | emptyName
  | endChild (name : String)
  | duplicateChild (name : String)
  | endElement
  | elementKind (wanted found : TagKind) (index : Nat)
  deriving DecidableEq, Repr

/-- Bytes or values that have no place in the format. -/
inductive Malformation where
  | varInt (fault : VarInt.Fault)
  | width (kind : String) (size got : Nat)
  | boolean (bytes : Bytes)
  | negativeLength (what : String) (n : Int)
  | textBytes (length limit : Nat)
  | textCharacters (length limit : Nat)
  | utf8 (fault : Utf8.Fault)
  | rewind (position length : Nat)
  | nextState (code : Int)
  | uuid (text : String)
  | negativePropertyCount (n : Int)
  | tooManyProperties
  | noSignature (version : Version)
  | noPacket (packet : String) (version : Version)
  | payloadLength (packet : String) (length limit : Nat)
  | frameBytes (packet : String) (length limit : Nat)
  | emptyFrame (n : Int)
  | frameLength (n : Nat) (limit : Nat)
  | inboxFrameLength (n : Int)
  | negativeDataLength (n : Int)
  | dataLength (n limit : Nat)
  | leftInFrame (packet : String) (n : Nat)
  | corruptDeflate
  | inflatesPast (declared : Nat)
  | inflatedTo (length declared : Nat)
  | statusDocument
  | nbt (fault : Nbt.Malformation)
  deriving DecidableEq, Repr

/-- What failed in a channel. -/
inductive ChannelFault where
  | source
  | sink
  deriving DecidableEq, Repr

inductive Fault where
  | channel (fault : ChannelFault)
  | range (bounds : OutOfRange)
  | format (cause : Malformation)
  /-- A source ended after `got` when `expected` bytes were wanted. -/
  | unexpectedEnd (expected : Nat) (got : Bytes)
  | unknownPacket (id : Int32) (state : ConnectionState) (direction : Direction)
    (version : Version)
  | unsupportedVersion (version : Version)
  | duplicatePacket (id : Int32) (state : ConnectionState) (direction : Direction)
    (first second : String)
  | structural (breach : Nbt.Breach)
  | schemaMismatch (expected found : String)
  | config (fault : Config.Fault)
  deriving DecidableEq, Repr

/-- The classes of faults a caller can tell apart. -/
inductive Fault.Kind where
  | channel | range | format | unexpectedEnd | unknownPacket | unsupportedVersion | registration
  | structural | schemaMismatch | config
  deriving DecidableEq, Repr

def Fault.kind : Fault → Fault.Kind
  | .channel _ => .channel
  | .range _ => .range
  | .format _ => .format
  | .unexpectedEnd .. => .unexpectedEnd
  | .unknownPacket .. => .unknownPacket
  | .unsupportedVersion _ => .unsupportedVersion
  | .duplicatePacket .. => .registration
  | .structural _ => .structural
  | .schemaMismatch .. => .schemaMismatch
  | .config _ => .config

/-! ### Wording -/

def VarInt.Fault.message : VarInt.Fault → String
  | .overflow bits group =>
    "value exceeds " ++ toString bits ++ " bits, final group 0x" ++ Hex.padded 2 group
  | .overlong bits =>
    (if bits ≤ 32 then "VarInt" else "VarLong") ++ " exceeds " ++ toString (maxLength bits) ++
      " bytes"

def Nbt.Malformation.message : Nbt.Malformation → String
  | .nesting => "NBT nesting exceeds 512 levels"
  | .typeByte b => "invalid NBT type byte " ++ toString b.toNat
  | .stringLength n => "negative NBT string length " ++ toString n
  | .length kind n => "negative " ++ kind.name ++ " length " ++ toString n
  | .endElements n => "list declares " ++ toString n ++ " TAG_End elements"
  | .trailing n => "Trailing bytes after NBT root: " ++ toString n ++ " bytes"
  | .notScalar kind => kind.name ++ " is not a scalar tag"
  | .namelessChild => "compound child has no name"

def Nbt.Breach.message : Nbt.Breach → String
  | .emptyName => "compound child name is empty"
  | .endChild name => "compound child " ++ Quoted.quote name ++ " cannot be TAG_End"
  | .duplicateChild name => "duplicate compound child " ++ Quoted.quote name
  | .endElement => "TAG_End cannot be a list element"
  | .elementKind wanted found index =>
    "list of " ++ wanted.name ++ " cannot hold " ++ found.name ++ " at index " ++ toString index

def Malformation.message : Malformation → String
  | .varInt fault => fault.message
  | .width kind size got =>
    kind ++ " needs " ++ toString size ++ " bytes, got " ++ toString got
  | .boolean bytes =>
    "invalid bool encoding [" ++ String.intercalate ", " (bytes.map Hex.byte) ++ "]"
  | .negativeLength what n => "Negative length prefix: " ++ what ++ " length " ++ toString n
  | .textBytes length limit =>
    "string byte length " ++ toString length ++ " exceeds " ++ toString limit
  | .textCharacters length limit =>
    "string length " ++ toString length ++ " exceeds " ++ toString limit ++ " characters"
  | .utf8 fault => "String is not valid UTF-8: " ++ fault.message
  | .rewind position length =>
    "cannot rewind to " ++ toString position ++ ", buffer holds " ++ toString length ++ " bytes"
  | .nextState code =>
    "invalid handshake next state " ++ toString code ++ " (expected 1 or 2)"
  | .uuid text => "malformed UUID " ++ Quoted.quote text
  | .negativePropertyCount n => "negative property count " ++ toString n
  | .tooManyProperties => "too many profile properties"
  | .noSignature version =>
    "signature verification does not exist in protocol " ++ version.text
  | .noPacket packet version => packet ++ " does not exist in protocol " ++ version.text
  | .payloadLength packet length limit =>
    packet ++ " payload of " ++ toString length ++ " bytes exceeds data limit " ++ toString limit
  | .frameBytes packet length limit =>
    packet ++ " frame of " ++ toString length ++ " bytes exceeds limit " ++ toString limit
  | .emptyFrame n => "Frame length must be at least 1, got " ++ toString n
  | .frameLength n limit => "frame length " ++ toString n ++ " exceeds limit " ++ toString limit
  | .inboxFrameLength n => "invalid frame length " ++ toString n
  | .negativeDataLength n => "negative data length " ++ toString n
  | .dataLength n limit =>
    "declared data length " ++ toString n ++ " exceeds limit " ++ toString limit
  | .leftInFrame packet n =>
    "Packet body did not consume the whole frame: " ++ packet ++ " left " ++ toString n ++ " bytes"
  | .corruptDeflate => "Decompression failed"
  | .inflatesPast declared =>
    "Decompression failed: payload inflates past declared length " ++ toString declared
  | .inflatedTo length declared =>
    "Decompression failed: inflated to " ++ toString length ++ " bytes, declared " ++
      toString declared
  | .statusDocument => "status JSON"
  | .nbt fault => fault.message

def ChannelFault.message : ChannelFault → String
  | .source => "source failed"
  | .sink => "sink failed"

def Fault.message : Fault → String
  | .channel fault => "I/O error: " ++ fault.message
  | .range bounds =>
    "Value " ++ bounds.value.text ++ " out of range for " ++ bounds.kind ++ " (expected " ++
      bounds.minimum.text ++ "..=" ++ bounds.maximum.text ++ ")"
  | .format cause => "Format error: " ++ cause.message
  | .unexpectedEnd expected got =>
    "Unexpected end of stream: expected " ++ toString expected ++ " bytes, got " ++
      toString got.length
  | .unknownPacket id state direction version =>
    "Unknown packet id 0x" ++ Hex.padded 2 id.toUInt32.toNat ++ " for " ++ direction.title ++ " " ++
      state.title ++ " (protocol " ++ toString version.number ++ ")"
  | .unsupportedVersion version => version.unsupportedMessage
  | .duplicatePacket id state direction first second =>
    "Duplicate packet id 0x" ++ Hex.padded 2 id.toUInt32.toNat ++ " in " ++ direction.title ++ " " ++
      state.title ++ ": " ++ first ++ " conflicts with " ++ second
  | .structural breach => "NBT structure error: " ++ breach.message
  | .schemaMismatch expected found =>
    "Schema mismatch: expected " ++ expected ++ ", found " ++ found
  | .config fault => "Configuration error: " ++ fault.message

end MinecraftWire
