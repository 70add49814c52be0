import MinecraftWire.Config.Basic
import MinecraftWire.Toml.Document

/-! Configurations as TOML documents with one table for each section. A section that is missing has its
defaults; one that is there has all of its fields. -/

namespace MinecraftWire.Config

open Toml (Value Entries)

/-! ### Values -/

/-- An integer within bounds. -/
def integer (lower upper : Int) : Value → Except Fault Int
  | .integer n => if lower ≤ n ∧ n ≤ upper then .ok n else .error .toml
  | _ => .error .toml

def version (v : Value) : Except Fault Version :=
  (integer (FixedInteger.lower Int32) (FixedInteger.upper Int32) v).map (⟨·⟩)

def threshold (v : Value) : Except Fault Int32 :=
  (integer (FixedInteger.lower Int32) (FixedInteger.upper Int32) v).map Int32.ofInt

def level (v : Value) : Except Fault Nat :=
  (integer 0 (FixedInteger.upper UInt32) v).map Int.toNat

def length (v : Value) : Except Fault Nat :=
  (integer 0 (FixedInteger.upper UInt64) v).map Int.toNat

def boolean : Value → Except Fault Bool
  | .boolean b => .ok b
  | _ => .error .toml

def string : Value → Except Fault String
  | .string s => .ok s
  | _ => .error .toml

def logLevel : Value → Except Fault LogLevel
  | .string s =>
    match LogLevel.ofText? s.toList with
    | some level => .ok level
    | none => .error (.logLevel s)
  | _ => .error .toml

/-! ### Sections -/

/-- Where the fields of a section come from. -/
inductive Fields where
  | named (entries : Entries)
  /-- By their positions. -/
  | listed (items : List Value)

/-- The fields that a value gives to a section. A date counts as a table without any of them. -/
def Fields.ofValue : Value → Except Fault Fields
  | .table _ entries => .ok (.named entries)
  | .dateTime => .ok (.named [])
  | .array items => .ok (.listed items)
  | _ => .error .toml

/-- The field of a name and a position. -/
def Fields.get {α : Type} (fields : Fields) (name : String) (position : Nat)
    (decode : Value → Except Fault α) : Except Fault α :=
  match fields with
  | .named entries =>
    match entries.lookup name with
    | some v => decode v
    | none => .error (.missingField name)
  | .listed items =>
    match items[position]? with
    | some v => decode v
    | none => .error .toml

/-- Look for a bad value among named fields, in their order; a field may be missing. -/
def Fields.check (fields : Fields) (checks : List (String × (Value → Except Fault Unit))) :
    Except Fault Unit :=
  match fields with
  | .named entries => entries.forM fun (name, v) =>
    match checks.lookup name with
    | some check => check v
    | none => .ok ()
  | .listed _ => .ok ()

def ignored {α : Type} (decode : Value → Except Fault α) (v : Value) : Except Fault Unit :=
  (decode v).map fun _ => ()

def Protocol.ofValue (v : Value) : Except Fault Protocol := do
  let fields ← Fields.ofValue v
  fields.check [("version", ignored Config.version), ("max_frame_length", ignored length)]
  let version ← fields.get "version" 0 Config.version
  let maxFrameLength ← fields.get "max_frame_length" 1 length
  return { version, maxFrameLength }

def Compression.ofValue (v : Value) : Except Fault Compression := do
  let fields ← Fields.ofValue v
  fields.check
    [("threshold", ignored Config.threshold), ("level", ignored Config.level),
      ("max_data_length", ignored length)]
  let threshold ← fields.get "threshold" 0 Config.threshold
  let level ← fields.get "level" 1 Config.level
  let maxDataLength ← fields.get "max_data_length" 2 length
  return { threshold, level, maxDataLength }

def Logging.ofValue (v : Value) : Except Fault Logging := do
  let fields ← Fields.ofValue v
  fields.check
    [("app_name", ignored string), ("log_level", ignored logLevel), ("json_format", ignored boolean)]
  let applicationName ← fields.get "app_name" 0 string
  let level ← fields.get "log_level" 1 logLevel
  let json ← fields.get "json_format" 2 boolean
  return { applicationName, level, json }

/-! ### Documents -/

/-- Take one entry of a document; those that are no sections do not matter. -/
def addEntry (c : Config) (entry : String × Value) : Except Fault Config :=
  match entry.1 with
  | "protocol" => (Protocol.ofValue entry.2).map fun protocol => { c with protocol }
  | "compression" => (Compression.ofValue entry.2).map fun compression => { c with compression }
  | "logging" => (Logging.ofValue entry.2).map fun logging => { c with logging }
  | _ => .ok c

/-- The configuration of a TOML text. -/
def ofToml (text : String) : Except Fault Config :=
  match Toml.parse? text with
  | some entries => entries.foldlM addEntry {}
  | none => .error .toml

/-- The configuration of a file's content; there is none if there is no file. -/
def ofFile : Option Bytes → Except Fault Config
  | none => .error .fileNotFound
  | some bytes =>
    match Utf8.decode bytes with
    | .ok text => ofToml text
    | .error _ => .error .fileNotUtf8

/-! ### Writing -/

/-- A length as TOML has it: its integers are signed and have 64 bits. -/
def lengthText (n : Nat) : Except Fault String :=
  if n ≤ FixedInteger.upper Int64 then .ok (toString n) else .error .lengthTooGreat

/-- A section: its header and its fields, each on a line. -/
def sectionText (name : String) (fields : List (String × String)) : String :=
  "[" ++ name ++ "]\n" ++ String.join (fields.map fun (key, value) => key ++ " = " ++ value ++ "\n")

/-- The TOML text of a configuration, with all fields of all sections. -/
def toToml (c : Config) : Except Fault String := do
  let maxFrameLength ← lengthText c.protocol.maxFrameLength
  let maxDataLength ← lengthText c.compression.maxDataLength
  return String.intercalate "\n"
    [sectionText "protocol"
      [("version", toString c.protocol.version.number), ("max_frame_length", maxFrameLength)],
    sectionText "compression"
      [("threshold", toString c.compression.threshold.toInt),
        ("level", toString c.compression.level), ("max_data_length", maxDataLength)],
    sectionText "logging"
      [("app_name", Toml.quote c.logging.applicationName),
        ("log_level", Toml.quote c.logging.level.name), ("json_format", toString c.logging.json)]]

/-- A document with every default. -/
def exampleText : Except Fault String :=
  toToml {}

end MinecraftWire.Config
