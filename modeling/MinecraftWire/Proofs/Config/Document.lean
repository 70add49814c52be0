import MinecraftWire.Config.Document
import MinecraftWire.Proofs.Text.Utf8
import MinecraftWire.Proofs.Toml.Document

/-! Saved configurations load unchanged. The text of a configuration is three sections with a line for
each field, and what a line denotes is decoded to the field that it was written for. -/

namespace MinecraftWire.Config

open Toml (Value Entries Section Line IsBare)

/-! ### Values -/

section Values

variable {lower upper i : Int}

theorem integer_of_mem (hlower : lower ≤ i) (hupper : i ≤ upper) :
    integer lower upper (.integer i) = .ok i :=
  if_pos ⟨hlower, hupper⟩

theorem version_integer {v : Version} (hlower : FixedInteger.lower Int32 ≤ v.number)
    (hupper : v.number ≤ FixedInteger.upper Int32) : version (.integer v.number) = .ok v := by
  rw [version, integer_of_mem hlower hupper]
  rfl

theorem threshold_integer (t : Int32) : threshold (.integer t.toInt) = .ok t := by
  have hlower : FixedInteger.lower Int32 ≤ t.toInt := t.le_toInt
  have hupper : t.toInt ≤ FixedInteger.upper Int32 := t.toInt_le
  rw [threshold, integer_of_mem hlower hupper]
  exact congrArg Except.ok t.ofInt_toInt

theorem level_integer {n : Nat} (h : n ≤ FixedInteger.upper UInt32) :
    level (.integer n) = .ok n := by
  rw [level, integer_of_mem (Int.natCast_nonneg n) h]
  rfl

theorem length_integer {n : Nat} (h : n ≤ FixedInteger.upper Int64) :
    length (.integer n) = .ok n := by
  rw [length, integer_of_mem (Int.natCast_nonneg n) (h.trans (by decide))]
  rfl

theorem logLevel_name (level : LogLevel) : logLevel (.string level.name) = .ok level := by
  cases level <;> rfl

end Values

/-! ### Sections -/

/-- The bounds that the fields have by their types, and lengths that have a place among the integers
of TOML. -/
structure Storable (c : Config) : Prop where
  version : FixedInteger.lower Int32 ≤ c.protocol.version.number ∧
    c.protocol.version.number ≤ FixedInteger.upper Int32
  level : c.compression.level ≤ FixedInteger.upper UInt32
  maxFrameLength : c.protocol.maxFrameLength ≤ FixedInteger.upper Int64
  maxDataLength : c.compression.maxDataLength ≤ FixedInteger.upper Int64

/-- Whether an integer has a place among those of TOML. -/
def Fits (i : Int) : Prop :=
  FixedInteger.lower Int64 ≤ i ∧ i ≤ FixedInteger.upper Int64

theorem fits_natCast {n : Nat} (h : n ≤ FixedInteger.upper Int64) : Fits n :=
  ⟨Int.le_trans (by decide) (Int.natCast_nonneg n), h⟩

theorem fits_of_int32 {i : Int} (hlower : FixedInteger.lower Int32 ≤ i)
    (hupper : i ≤ FixedInteger.upper Int32) : Fits i :=
  ⟨Int.le_trans (by decide) hlower, Int.le_trans hupper (by decide)⟩

def integerLine (key : String) (i : Int) (bare : IsBare key) (h : Fits i) : Line where
  key := key
  text := toString i
  value := .integer i
  bare := bare
  denotes := Toml.denotes_integer h.1 (Int.lt_of_le_sub_one h.2)

def stringLine (key s : String) (bare : IsBare key) : Line where
  key := key
  text := Toml.quote s
  value := .string s
  bare := bare
  denotes := Toml.denotes_quote s

def booleanLine (key : String) (b : Bool) (bare : IsBare key) : Line where
  key := key
  text := toString b
  value := .boolean b
  bare := bare
  denotes := Toml.denotes_boolean b

def protocolSection {c : Config} (h : Storable c) : Section where
  name := "protocol"
  lines := [
    integerLine "version" c.protocol.version.number (by decide)
      (fits_of_int32 h.version.1 h.version.2),
    integerLine "max_frame_length" c.protocol.maxFrameLength (by decide)
      (fits_natCast h.maxFrameLength)]
  bare := by decide
  distinct := by simp [integerLine]

def compressionSection {c : Config} (h : Storable c) : Section where
  name := "compression"
  lines := [
    integerLine "threshold" c.compression.threshold.toInt (by decide)
      (fits_of_int32 c.compression.threshold.le_toInt c.compression.threshold.toInt_le),
    integerLine "level" c.compression.level (by decide)
      (fits_natCast (Int.le_trans h.level (by decide))),
    integerLine "max_data_length" c.compression.maxDataLength (by decide)
      (fits_natCast h.maxDataLength)]
  bare := by decide
  distinct := by simp [integerLine]

def loggingSection (c : Config) : Section where
  name := "logging"
  lines := [
    stringLine "app_name" c.logging.applicationName (by decide),
    stringLine "log_level" c.logging.level.name (by decide),
    booleanLine "json_format" c.logging.json (by decide)]
  bare := by decide
  distinct := by simp [stringLine, booleanLine]

/-! ### Reading -/

/-- The fields of a section. -/
def fieldsOf (lines : List Line) : Fields :=
  .named (lines.map Line.entry)

/-- The fields of a section pass if each passes the check under its name. -/
theorem check_fieldsOf {lines : List Line} {checks : List (String × (Value → Except Fault Unit))}
    (h : ∀ l ∈ lines, ∀ check, checks.lookup l.key = some check → check l.value = .ok ()) :
    (fieldsOf lines).check checks = .ok () := by
  induction lines with
  | nil => rfl
  | cons l lines ih =>
    have hrest := ih fun l hl => h l (List.mem_cons_of_mem _ hl)
    have hcheck := h l List.mem_cons_self
    simp only [fieldsOf, Fields.check, List.map_cons, List.forM_eq_forM, List.forM_cons] at hrest ⊢
    rcases hlookup : checks.lookup l.key with _ | check
    · simp only [Line.entry, hlookup]
      exact hrest
    · simp only [Line.entry, hlookup, hcheck check hlookup]
      exact hrest

/-- A field is what the value of its line is decoded to. -/
theorem get_fieldsOf {α : Type} {s : Section} {key : String} {v : Value} {position : Nat}
    {decode : Value → Except Fault α} {a : α} (h : (key, v) ∈ s.lines.map Line.entry)
    (hv : decode v = .ok a) : (fieldsOf s.lines).get key position decode = .ok a := by
  have hnodup : ((s.lines.map Line.entry).map Prod.fst).Nodup := by
    rw [Line.map_fst_entry]
    exact s.distinct
  simp only [fieldsOf, Fields.get, lookup_eq_some_of_mem hnodup h, hv]

theorem ignored_ok {α : Type} {decode : Value → Except Fault α} {v : Value} {a : α}
    (h : decode v = .ok a) : ignored decode v = .ok () := by
  rw [ignored, h]
  rfl

theorem ofValue_entry (s : Section) : Fields.ofValue s.entry.2 = .ok (fieldsOf s.lines) :=
  rfl

theorem Protocol.ofValue_section {c : Config} (h : Storable c) :
    Protocol.ofValue (protocolSection h).entry.2 = .ok c.protocol := by
  have hversion := version_integer h.version.1 h.version.2
  have hlength := length_integer h.maxFrameLength
  have hcheck : (fieldsOf (protocolSection h).lines).check
      [("version", ignored Config.version), ("max_frame_length", ignored length)] = .ok () :=
    check_fieldsOf (by
      simp [protocolSection, integerLine, List.lookup_cons, ignored_ok hversion, ignored_ok hlength])
  have hversion' : (fieldsOf (protocolSection h).lines).get "version" 0 Config.version = .ok _ :=
    get_fieldsOf (.head _) hversion
  have hlength' : (fieldsOf (protocolSection h).lines).get "max_frame_length" 1 length = .ok _ :=
    get_fieldsOf (.tail _ (.head _)) hlength
  simp only [Protocol.ofValue, ofValue_entry, bind, Except.bind, hcheck, hversion', hlength']
  rfl

theorem Compression.ofValue_section {c : Config} (h : Storable c) :
    Compression.ofValue (compressionSection h).entry.2 = .ok c.compression := by
  have hthreshold := threshold_integer c.compression.threshold
  have hlevel := level_integer h.level
  have hlength := length_integer h.maxDataLength
  have hcheck : (fieldsOf (compressionSection h).lines).check
      [("threshold", ignored Config.threshold), ("level", ignored Config.level),
        ("max_data_length", ignored length)] = .ok () :=
    check_fieldsOf (by
      simp [compressionSection, integerLine, List.lookup_cons, ignored_ok hthreshold,
        ignored_ok hlevel, ignored_ok hlength])
  have hthreshold' : (fieldsOf (compressionSection h).lines).get "threshold" 0 Config.threshold =
      .ok _ :=
    get_fieldsOf (.head _) hthreshold
  have hlevel' : (fieldsOf (compressionSection h).lines).get "level" 1 Config.level = .ok _ :=
    get_fieldsOf (.tail _ (.head _)) hlevel
  have hlength' : (fieldsOf (compressionSection h).lines).get "max_data_length" 2 length = .ok _ :=
    get_fieldsOf (.tail _ (.tail _ (.head _))) hlength
  simp only [Compression.ofValue, ofValue_entry, bind, Except.bind, hcheck, hthreshold', hlevel',
    hlength']
  rfl

theorem Logging.ofValue_section (c : Config) :
    Logging.ofValue (loggingSection c).entry.2 = .ok c.logging := by
  have hname : string (.string c.logging.applicationName) = .ok c.logging.applicationName := rfl
  have hlevel := logLevel_name c.logging.level
  have hjson : boolean (.boolean c.logging.json) = .ok c.logging.json := rfl
  have hcheck : (fieldsOf (loggingSection c).lines).check
      [("app_name", ignored string), ("log_level", ignored logLevel),
        ("json_format", ignored boolean)] = .ok () :=
    check_fieldsOf (by
      simp [loggingSection, stringLine, booleanLine, List.lookup_cons, ignored_ok hname,
        ignored_ok hlevel, ignored_ok hjson])
  have hname' : (fieldsOf (loggingSection c).lines).get "app_name" 0 string = .ok _ :=
    get_fieldsOf (.head _) hname
  have hlevel' : (fieldsOf (loggingSection c).lines).get "log_level" 1 logLevel = .ok _ :=
    get_fieldsOf (.tail _ (.head _)) hlevel
  have hjson' : (fieldsOf (loggingSection c).lines).get "json_format" 2 boolean = .ok _ :=
    get_fieldsOf (.tail _ (.tail _ (.head _))) hjson
  simp only [Logging.ofValue, ofValue_entry, bind, Except.bind, hcheck, hname', hlevel', hjson']
  rfl

/-! ### Documents -/

section Documents

variable {c : Config}

def sections (h : Storable c) : List Section :=
  [protocolSection h, compressionSection h, loggingSection c]

theorem foldlM_addEntry (h : Storable c) (c' : Config) :
    ((sections h).map Section.entry).foldlM addEntry c' = .ok c := by
  have hprotocol : addEntry c' (protocolSection h).entry = .ok { c' with protocol := c.protocol } :=
    congrArg (Except.map _) (Protocol.ofValue_section h)
  have hcompression : addEntry { c' with protocol := c.protocol } (compressionSection h).entry =
      .ok { c with logging := c'.logging } :=
    congrArg (Except.map _) (Compression.ofValue_section h)
  have hlogging : addEntry { c with logging := c'.logging } (loggingSection c).entry = .ok c :=
    congrArg (Except.map _) (Logging.ofValue_section c)
  simp only [sections, List.map_cons, List.map_nil, List.foldlM_cons, List.foldlM_nil, bind,
    Except.bind, hprotocol, hcompression, hlogging]
  rfl

/-- The text of a section. -/
def textOf (s : Section) : String :=
  sectionText s.name (s.lines.map fun l => (l.key, l.text))

theorem toList_textOf (s : Section) : (textOf s).toList = s.chars := by
  have hline (l : Line) : (l.key ++ " = " ++ l.text ++ "\n").toList = l.chars := by
    simp [Line.chars]
  have hlines : (String.join (s.lines.map fun l => l.key ++ " = " ++ l.text ++ "\n")).toList =
      s.lines.flatMap Line.chars := by
    rw [String.toList_join, List.flatMap_map]
    exact congrArg (s.lines.flatMap ·) (funext hline)
  rw [textOf, sectionText, List.map_map, String.toList_append]
  refine (congrArg _ hlines).trans ?_
  simp [Section.chars]

theorem lengthText_eq {n : Nat} (h : n ≤ FixedInteger.upper Int64) :
    lengthText n = .ok (toString (n : Int)) :=
  if_pos h

theorem toToml_eq (h : Storable c) :
    toToml c = .ok (String.ofList (['\n'].intercalate ((sections h).map Section.chars))) := by
  have htext : toToml c = .ok (String.intercalate "\n" ((sections h).map textOf)) := by
    simp only [toToml, lengthText_eq h.maxFrameLength, lengthText_eq h.maxDataLength, bind, Except.bind]
    rfl
  have hchars : (String.intercalate "\n" ((sections h).map textOf)).toList =
      ['\n'].intercalate ((sections h).map Section.chars) := by
    rw [String.toList_intercalate, List.map_map]
    exact congrArg _ (List.map_congr_left fun s _ => toList_textOf s)
  rw [htext, ← hchars, String.ofList_toList]

/-- Only a length that is no integer of TOML keeps a configuration from being saved. -/
theorem toToml_eq_error_iff {f : Fault} : toToml c = .error f ↔ f = .lengthTooGreat ∧
    (FixedInteger.upper Int64 < c.protocol.maxFrameLength ∨
      FixedInteger.upper Int64 < c.compression.maxDataLength) := by
  have herror {n : Nat} (h : FixedInteger.upper Int64 < n) : lengthText n = .error .lengthTooGreat :=
    if_neg (Int.not_le.mpr h)
  simp only [toToml, bind, Except.bind]
  rcases lt_or_ge (FixedInteger.upper Int64) (c.protocol.maxFrameLength : Int) with hframe | hframe
  · simp [herror hframe, hframe, eq_comm]
  rcases lt_or_ge (FixedInteger.upper Int64) (c.compression.maxDataLength : Int) with hdata | hdata
  · simp [lengthText_eq hframe, herror hdata, hdata, eq_comm]
  · simp [lengthText_eq hframe, lengthText_eq hdata, pure, Except.pure, Int.not_lt.mpr hframe,
      Int.not_lt.mpr hdata]

theorem ofToml_toToml (h : Storable c) : ∃ text, toToml c = .ok text ∧ ofToml text = .ok c := by
  refine ⟨_, toToml_eq h, ?_⟩
  have hnames : ((sections h).map Section.name).Nodup := by
    simp [sections, protocolSection, compressionSection, loggingSection]
  rw [ofToml, Toml.parse?_sections hnames]
  exact foldlM_addEntry h {}

end Documents

/-- A saved configuration loads unchanged, as a text and as the content of a file. -/
theorem saved_loads_unchanged (c : Config) (h : Storable c) :
    ∃ text, toToml c = .ok text ∧ ofToml text = .ok c ∧ ofFile (some (Utf8.encode text)) = .ok c := by
  obtain ⟨text, hsave, hload⟩ := ofToml_toToml h
  refine ⟨text, hsave, hload, ?_⟩
  rw [ofFile, Utf8.decode_encode]
  exact hload

/-- Bounds of several fields, and a name with all that strings treat apart. -/
def unusual : Config where
  protocol := { version := ⟨-2 ^ 31⟩, maxFrameLength := 0 }
  compression := { threshold := -7, level := 2 ^ 32 - 1, maxDataLength := 2 ^ 63 - 1 }
  logging :=
    { applicationName := "\x22\x22\x22 \x27\x27\x27\n\\u0041\r\n\x00\t\x7f # é",
      level := .trace, json := true }

theorem unusual_loads_unchanged : Storable unusual ∧
    ∃ text, toToml unusual = .ok text ∧ ofToml text = .ok unusual ∧
      ofFile (some (Utf8.encode text)) = .ok unusual := by
  have hstorable : Storable unusual := ⟨by decide, by decide, by decide, by decide⟩
  exact ⟨hstorable, saved_loads_unchanged unusual hstorable⟩

end MinecraftWire.Config
