import MinecraftWire.Nbt.Tag

/-! Schemas tell which kinds of tags native values stand for. -/

namespace MinecraftWire.Nbt

inductive Schema where
  | byte | short | int | long | float | double | byteArray | string
  | list (element : Schema)
  /-- Fields without an entry are free, and fields may be missing. -/
  | compound (fields : List (String × Schema))
  | intArray | longArray
  deriving Repr, Inhabited

namespace Schema

/-- The kind of the tags that values of a schema become. -/
def kind : Schema → TagKind
  | byte => .byte
  | short => .short
  | int => .int
  | long => .long
  | float => .float
  | double => .double
  | byteArray => .byteArray
  | string => .string
  | list _ => .list
  | compound _ => .compound
  | intArray => .intArray
  | longArray => .longArray

/-- The schema of the elements of an empty list of a kind, unless the kind leaves it open. -/
def ofKind? : TagKind → Option Schema
  | .endMark | .list => none
  | .byte => some byte
  | .short => some short
  | .int => some int
  | .long => some long
  | .float => some float
  | .double => some double
  | .byteArray => some byteArray
  | .string => some string
  | .compound => some (compound [])
  | .intArray => some intArray
  | .longArray => some longArray

/-- Replace the first field of a name by what `combine` makes of it, or add `fresh` at the end. -/
def upsert (name : String) (fresh : Schema) (combine : Schema → Schema) :
    List (String × Schema) → List (String × Schema)
  | [] => [(name, fresh)]
  | (other, s) :: rest =>
    if other = name then (other, combine s) :: rest
    else (other, s) :: upsert name fresh combine rest

mutual

/-- One schema for values of two. The fields of compounds are joined in the order of their first
sight; where the two differ otherwise, the first holds. -/
def merge (a : Schema) : Schema → Schema
  | compound more =>
    match a with
    | compound fields => compound (mergeFields fields more)
    | _ => a
  | list other =>
    match a with
    | list element => list (element.merge other)
    | _ => a
  | _ => a
termination_by structural b => b

def mergeFields (fields : List (String × Schema)) :
    List (String × Schema) → List (String × Schema)
  | [] => fields
  | (name, s) :: more => mergeFields (upsert name s (fun old => old.merge s) fields) more
termination_by structural more => more

end

def mergeOptional : Option Schema → Option Schema → Option Schema
  | some a, some b => some (a.merge b)
  | some a, none => some a
  | none, b => b

mutual

/-- The schema under which the native form of a tree becomes the tree again, as far as there is one:
the elements of a list share one schema. -/
def of? : Tag → Option Schema
  | .endMark => none
  | .byte _ => some byte
  | .short _ => some short
  | .int _ => some int
  | .long _ => some long
  | .float _ => some float
  | .double _ => some double
  | .byteArray _ => some byteArray
  | .string _ => some string
  | .list kind items =>
    match ofItems none items with
    | some element => some (list element)
    | none => (ofKind? kind).map list
  | .compound entries => some (compound (ofEntries entries))
  | .intArray _ => some intArray
  | .longArray _ => some longArray
termination_by structural t => t

def ofItems (merged : Option Schema) : List Tag → Option Schema
  | [] => merged
  | t :: rest => ofItems (mergeOptional merged (of? t)) rest
termination_by structural ts => ts

def ofEntries : List (String × Tag) → List (String × Schema)
  | [] => []
  | (name, t) :: rest =>
    match of? t with
    | some s => (name, s) :: ofEntries rest
    | none => ofEntries rest
termination_by structural es => es

end

end Schema

end MinecraftWire.Nbt
