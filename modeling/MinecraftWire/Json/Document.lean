import MinecraftWire.Json.Token
import MinecraftWire.Fault

/-! JSON documents. Arrays and objects whose end is still to come are kept on a stack, innermost
first; every token then takes one step. -/

namespace MinecraftWire.Json

/-- The most arrays and objects that may be open at once. -/
def maxDepth : Nat := 127

/-- An array or object and what it holds so far, last first. -/
inductive Open where
  | array (items : List Native)
  | object (fields : List (String × Native))
  /-- An object and the name of the field whose value is to come. -/
  | field (fields : List (String × Native)) (name : String)

/-- What may come next. -/
inductive Demand where
  | value
  | elementOrEnd
  | nameOrEnd
  | name
  | colon
  | commaOrEnd
  deriving DecidableEq

inductive State where
  | running (demand : Demand) (stack : List Open)
  | finished (v : Native)

/-- Give a value that is complete to the innermost container. -/
def State.attach (v : Native) : List Open → Option State
  | [] => some (.finished v)
  | .array items :: stack => some (.running .commaOrEnd (.array (v :: items) :: stack))
  | .field fields name :: stack =>
    some (.running .commaOrEnd (.object ((name, v) :: fields) :: stack))
  | .object _ :: _ => none

def State.enter (demand : Demand) (o : Open) (stack : List Open) : Option State :=
  if stack.length < maxDepth then some (.running demand (o :: stack)) else none

/-- Take a token; `none` where it has no place. -/
def State.step : State → Token → Option State
  | .running .value stack, .scalar v | .running .elementOrEnd stack, .scalar v =>
    attach v stack
  | .running .value stack, .arrayStart | .running .elementOrEnd stack, .arrayStart =>
    enter .elementOrEnd (.array []) stack
  | .running .value stack, .objectStart | .running .elementOrEnd stack, .objectStart =>
    enter .nameOrEnd (.object []) stack
  | .running .elementOrEnd (.array items :: stack), .arrayEnd
  | .running .commaOrEnd (.array items :: stack), .arrayEnd =>
    attach (.array items.reverse) stack
  | .running .nameOrEnd (.object fields :: stack), .objectEnd
  | .running .commaOrEnd (.object fields :: stack), .objectEnd =>
    attach (Native.ofFields fields.reverse) stack
  | .running .nameOrEnd (.object fields :: stack), .scalar (.string name)
  | .running .name (.object fields :: stack), .scalar (.string name) =>
    some (.running .colon (.field fields name :: stack))
  | .running .colon stack, .colon => some (.running .value stack)
  | .running .commaOrEnd (.array items :: stack), .comma =>
    some (.running .value (.array items :: stack))
  | .running .commaOrEnd (.object fields :: stack), .comma =>
    some (.running .name (.object fields :: stack))
  | _, _ => none

/-- The value of a whole text. -/
def parse? (text : String) : Option Native := do
  match ← (← tokens? text.toList).foldlM State.step (.running .value []) with
  | .finished v => some v
  | .running .. => none

end MinecraftWire.Json

namespace MinecraftWire

/-- The document of a status response. -/
def Native.ofStatusText (text : String) : Except Fault Native :=
  match Json.parse? text with
  | some v => .ok v
  | none => .error (.format .statusDocument)

end MinecraftWire
