import MinecraftWire.Config.Basic

/-! Configurations from environment variables, each of which replaces one default. -/

namespace MinecraftWire.Config

/-- The value of a variable without the blanks around it, if it is set. -/
def setting? {α : Type} (get : String → Option String) (name : String)
    (parse? : List Char → Option α) : Except Fault (Option α) :=
  match get name with
  | none => .ok none
  | some text =>
    match parse? (Blank.trim text.toList) with
    | some a => .ok (some a)
    | none => .error (.variable name text)

def int32? : List Char → Option Int :=
  Integer.parse? (FixedInteger.lower Int32) (FixedInteger.upper Int32)

/-- The configuration of variables; the first that is malformed fails. -/
def ofEnvironment (get : String → Option String) : Except Fault Config := do
  let version ← setting? get "MC_PROTOCOL_VERSION" int32?
  let threshold ← setting? get "MC_PROTOCOL_COMPRESSION_THRESHOLD" int32?
  let level ← setting? get "MC_PROTOCOL_COMPRESSION_LEVEL"
    (Integer.parse? 0 (FixedInteger.upper UInt32))
  let logLevel ← setting? get "MC_PROTOCOL_LOG_LEVEL" LogLevel.ofText?
  let defaults : Config := {}
  return {
    protocol := { version := (version.map (⟨·⟩)).getD defaults.protocol.version }
    compression :=
      { threshold := (threshold.map Int32.ofInt).getD defaults.compression.threshold
        level := (level.map Int.toNat).getD defaults.compression.level }
    logging := { level := logLevel.getD defaults.logging.level } }

end MinecraftWire.Config
