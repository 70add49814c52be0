import MinecraftWire.Text.Blank
import MinecraftWire.Version

/-! What can be wrong with a configuration. -/

namespace MinecraftWire

/-- A setting that is out of its bounds, or questionable. -/
inductive Config.Problem where
  | unsupportedVersion (version : Version)
  /-- Packets will use the layouts of an older version. -/
  | olderLayouts (version effective : Version)
  | zeroFrameLength
  | frameLengthTooLarge (length maximum : Nat)
  | compressionLevel (level : Nat)
  | zeroDataLength
  | dataLengthTooLarge (length maximum : Nat)
  | thresholdAboveDataLength
  | emptyApplicationName
  | applicationNameTooLong (bytes : Nat)
  deriving DecidableEq, Repr

/-- Why a configuration could not be had. -/
inductive Config.Fault where
  | fileNotFound
  | fileNotUtf8
  /-- The text is no configuration in TOML, or lacks a field, or names no log level. -/
  | toml
  | missingField (name : String)
  | logLevel (text : String)
  | variable (name value : String)
  /-- A length has no place among the integers of TOML. -/
  | lengthTooGreat
  | invalid (problems : List Config.Problem)
  deriving DecidableEq, Repr

/-- The text for a version that no supported version can stand in for. -/
def Version.unsupportedMessage (v : Version) : String :=
  "Unsupported protocol version " ++ toString v.number ++
    ": no older supported version to fall back to"

namespace Config

def Problem.message : Problem → String
  | .unsupportedVersion version => version.unsupportedMessage
  | .olderLayouts version effective =>
    "WARNING: protocol " ++ version.text ++ " is not supported, packets will use the " ++
      effective.text ++ " layouts"
  | .zeroFrameLength => "Max frame length cannot be 0"
  | .frameLengthTooLarge length maximum =>
    "Max frame length too large: " ++ toString length ++ " bytes (maximum: " ++
      toString maximum ++ ")"
  | .compressionLevel level =>
    "Invalid compression level: " ++ toString level ++ " (valid range: 0-9)"
  | .zeroDataLength => "Max data length cannot be 0"
  | .dataLengthTooLarge length maximum =>
    "Max data length too large: " ++ toString length ++ " bytes (maximum: " ++
      toString maximum ++ ")"
  | .thresholdAboveDataLength => "Compression threshold cannot be larger than max data length"
  | .emptyApplicationName => "Application name cannot be empty"
  | .applicationNameTooLong bytes =>
    "Application name too long: " ++ toString bytes ++ " characters (maximum: 64)"

/-- What may be told of a text that is no configuration: the last line that is not blank, if it is one
of ours. -/
def detail (text : String) : String :=
  match (Blank.lines text.toList).reverse.find? (!·.all Blank.isBlank) with
  | some line =>
    if "Invalid log level".toList.isPrefixOf line ∨ "missing field".toList.isPrefixOf line then
      ": " ++ String.ofList line
    else ""
  | none => ""

def Fault.message : Fault → String
  | .fileNotFound => "Failed to open config file: No such file or directory (os error 2)"
  | .fileNotUtf8 => "Failed to read config file: stream did not contain valid UTF-8"
  | .toml => "Failed to parse TOML"
  | .missingField name => "Failed to parse TOML" ++ detail ("missing field \x60" ++ name ++ "\x60")
  | .logLevel text => "Failed to parse TOML" ++ detail ("Invalid log level: " ++ text)
  | .variable name value => "Invalid value for " ++ name ++ ": '" ++ value ++ "'"
  | .lengthTooGreat => "Failed to serialize config: out-of-range value for u64 type"
  | .invalid problems =>
    "Configuration validation failed:\n  - " ++
      String.intercalate "\n  - " (problems.map Problem.message)

end Config

end MinecraftWire
