import MinecraftWire.Frame

/-! The configuration of a connection: the version it speaks, its limits, compression, and logging. -/

namespace MinecraftWire

inductive LogLevel where
  | error | warn | info | debug | trace
  deriving DecidableEq, Repr

namespace LogLevel

/-- Every level, from the one with the fewest messages. -/
def all : List LogLevel := [error, warn, info, debug, trace]

def name : LogLevel → String
  | error => "error"
  | warn => "warn"
  | info => "info"
  | debug => "debug"
  | trace => "trace"

/-- The level of a number from 1 or of a name in any case. -/
def ofText? (cs : List Char) : Option LogLevel :=
  match Integer.parse? 1 all.length cs with
  | some n => all[n.toNat - 1]?
  | none => all.find? fun level => level.name.toList == cs.map Char.toLower

end LogLevel

namespace Config

structure Protocol where
  version : Version := .latest
  maxFrameLength : Nat := FrameSettings.defaultMaxFrameLength
  deriving DecidableEq, Repr

structure Compression where
  /-- Payloads above it are compressed; a negative one turns compression off. -/
  threshold : Int32 := -1
  level : Nat := FrameSettings.defaultLevel
  maxDataLength : Nat := FrameSettings.defaultMaxDataLength
  deriving DecidableEq, Repr

def Compression.enabled (c : Compression) : Bool :=
  0 ≤ c.threshold

structure Logging where
  applicationName : String := "mc-protocol"
  level : LogLevel := .info
  json : Bool := false
  deriving DecidableEq, Repr

end Config

structure Config where
  protocol : Config.Protocol := {}
  compression : Config.Compression := {}
  logging : Config.Logging := {}
  deriving DecidableEq, Repr

namespace Config

/-- The frame settings that a configuration stands for. -/
def frameSettings (c : Config) : FrameSettings where
  threshold := c.compression.threshold
  level := c.compression.level
  maxFrameLength := c.protocol.maxFrameLength
  maxDataLength := c.compression.maxDataLength

/-! ### Validation -/

/-- The greatest level of compression. -/
def maxLevel : Nat := 9

/-- The most bytes of an application's name. -/
def maxNameBytes : Nat := 64

def Protocol.problems (p : Protocol) : List Problem :=
  (match p.version.resolve? with
    | none => [.unsupportedVersion p.version]
    | some r => if r.fallback = .nearest then [.olderLayouts p.version r.effective] else []) ++
  (if p.maxFrameLength = 0 then [.zeroFrameLength]
    else if FrameSettings.defaultMaxFrameLength < p.maxFrameLength then
      [.frameLengthTooLarge p.maxFrameLength FrameSettings.defaultMaxFrameLength]
    else [])

def Compression.problems (c : Compression) : List Problem :=
  (if maxLevel < c.level then [.compressionLevel c.level] else []) ++
  (if c.maxDataLength = 0 then [.zeroDataLength]
    else if FrameSettings.defaultMaxDataLength < c.maxDataLength then
      [.dataLengthTooLarge c.maxDataLength FrameSettings.defaultMaxDataLength]
    else []) ++
  (if c.enabled ∧ c.maxDataLength < c.threshold.toInt.toNat then [.thresholdAboveDataLength] else [])

def Logging.problems (l : Logging) : List Problem :=
  if l.applicationName.isEmpty then [.emptyApplicationName]
  else if maxNameBytes < l.applicationName.utf8ByteSize then
    [.applicationNameTooLong l.applicationName.utf8ByteSize]
  else []

/-- All that is wrong or questionable, section by section. -/
def problems (c : Config) : List Problem :=
  c.protocol.problems ++ c.compression.problems ++ c.logging.problems

/-- Accepts a configuration without problems only. -/
def validate (c : Config) : Except Fault Unit :=
  if c.problems.isEmpty then .ok () else .error (.invalid c.problems)

end Config

end MinecraftWire
