import MinecraftWire.Fault
import MinecraftWire.Zlib.Deflate
import MinecraftWire.Zlib.Portions

/-! The compressed envelope: which payloads are compressed, and inflation to a declared length. -/

namespace MinecraftWire.Compression

/-- Payloads longer than a threshold that is not negative are compressed. -/
def applies (threshold : Int32) (length : Nat) : Bool :=
  0 ≤ threshold && threshold.toInt.toNat < length

def compress (level : Nat) (data : Bytes) : Bytes :=
  Zlib.deflate level data

def compress? (threshold : Int32) (level : Nat) (data : Bytes) : Option Bytes :=
  if applies threshold data.length then some (compress level data) else none

/-- Inflate a stream that must hold exactly `declared` bytes, of which there may be at most
`limit`. -/
def decompress (limit declared : Nat) (data : Bytes) : Except Fault Bytes :=
  if limit < declared then .error (.format (.dataLength declared limit))
  else
    match Zlib.inflate data with
    | .error halt =>
      if declared < Zlib.released data halt then .error (.format (.inflatesPast declared))
      else .error (.format .corruptDeflate)
    | .ok (output, _) =>
      if declared < output.size then .error (.format (.inflatesPast declared))
      else if output.size < declared then .error (.format (.inflatedTo output.size declared))
      else .ok output.toList

/-- Nothing is inflated where no length was declared. -/
def decompress? (limit : Nat) (declared : Option Nat) (data : Bytes) :
    Except Fault (Option Bytes) :=
  match declared with
  | none => .ok none
  | some declared => (decompress limit declared data).map some

end MinecraftWire.Compression
