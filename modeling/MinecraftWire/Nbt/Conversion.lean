import MinecraftWire.Native
import MinecraftWire.Nbt.Container
import MinecraftWire.Nbt.Schema
import MinecraftWire.Number.Shortest

/-! Trees from native values and native values from trees. Native values do not tell the width of a
number or the elements of an empty array; a schema does, and where there is none the narrowest of
int, long and double is taken. -/

namespace MinecraftWire

/-- The word for what a value is. -/
def Native.describe : Native → String
  | null => "null"
  | bool _ => "boolean"
  | integer _ => "integer"
  | real _ => "number"
  | string _ => "string"
  | array _ => "array"
  | object _ => "object"

/-- The integer a value stands for; true and false stand for 1 and 0. -/
def Native.toInt? : Native → Option Int
  | bool b => some (if b then 1 else 0)
  | integer n => some n
  | _ => none

/-- The value of a number as a double. -/
def Native.toDouble? : Native → Option Float64Bits
  | integer n => some (Float64Bits.ofInt n)
  | real v => some v
  | _ => none

namespace Nbt

def mismatch {α : Type} (schema : Schema) (v : Native) : Except Fault α :=
  .error (.schemaMismatch schema.kind.name v.describe)

/-- A double as a float, unless it is finite and beyond the greatest float. -/
def Tag.ofDouble (v : Float64Bits) : Except Fault Tag :=
  let greatest := Float32Bits.greatest.widen
  if v.isFinite ∧ greatest.magnitude < v.magnitude then
    let bound := Float32Bits.greatest.shortest
    .error (.range ⟨TagKind.float.name, .decimal v.shortest, .decimal { bound with negative := true },
      .decimal bound⟩)
  else .ok (.float v.narrow)

/-- The integers that an array stands for under an array schema. -/
def integers (schema : Schema) : Native → Except Fault (List Int)
  | .array items => items.mapM fun v =>
    match v.toInt? with
    | some n => .ok n
    | none => mismatch schema v
  | v => mismatch schema v

def integerArray (α : Type) [FixedInteger α] (schema : Schema) (v : Native) :
    Except Fault (List α) := do
  (← integers schema v).mapM (narrowAs schema.kind.name α)

/-- The tag of a value under a schema that is no list and no compound. -/
def Tag.ofScalar (schema : Schema) (v : Native) : Except Fault Tag :=
  match schema with
  | .byte | .short | .int | .long =>
    match v.toInt? with
    | some n => Tag.integer schema.kind n
    | none => mismatch schema v
  | .float =>
    match v.toDouble? with
    | some x => Tag.ofDouble x
    | none => mismatch schema v
  | .double =>
    match v.toDouble? with
    | some x => .ok (.double x)
    | none => mismatch schema v
  | .string =>
    match v with
    | .string s => .ok (.string s)
    | _ => mismatch schema v
  | .byteArray => (integerArray Int8 schema v).map .byteArray
  | .intArray => (integerArray Int32 schema v).map .intArray
  | .longArray => (integerArray Int64 schema v).map .longArray
  | .list _ | .compound _ => mismatch schema v

/-! ### Values without a schema -/

/-- The kinds that a number without a schema may have, by increasing width. -/
inductive Width where
  | int | long | double
  deriving DecidableEq, Repr

namespace Width

def rank : Width → Nat
  | int => 0
  | long => 1
  | double => 2

def schema : Width → Schema
  | int => .int
  | long => .long
  | double => .double

/-- The narrowest width of a number; `none` for any other value. Integers above a long count as long,
for which they are out of range. -/
def of? : Native → Option Width
  | .integer n => some (if FixedInteger.lower Int32 ≤ n ∧ n ≤ FixedInteger.upper Int32 then int else long)
  | .real _ => some double
  | _ => none

def widest (a b : Width) : Width :=
  if a.rank < b.rank then b else a

/-- The width that all values of a non-empty array of numbers share. -/
def ofArray? : List Native → Option Width
  | [] => none
  | [v] => of? v
  | v :: rest =>
    match of? v, ofArray? rest with
    | some a, some b => some (a.widest b)
    | _, _ => none

end Width

/-- The tag of a value without a schema that is no array and no object. -/
def Tag.inferScalar (v : Native) : Except Fault Tag :=
  match v with
  | .null => .error (.schemaMismatch "a value" "null")
  | .bool b => .ok (.ofBool b)
  | .string s => .ok (.string s)
  | v => Tag.ofScalar ((Width.of? v).getD .double).schema v

/-- A list of a declared kind from elements as they come; the first that fails ends it. -/
def TagList.ofResults (l : TagList) : List (Except Fault Tag) → Except Fault TagList
  | [] => .ok l
  | t :: rest => do (← l.push (← t)).ofResults rest

/-! ### Trees from values -/

mutual

/-- The tag of a value, under a schema if there is one. -/
def Tag.ofNative (schema : Option Schema) : Native → Except Fault Tag
  | .array items =>
    match schema with
    | some (.list element) => do
      let l ← (TagList.ofKind element.kind).ofResults (Tag.ofNatives (some element) items)
      return l.toTag
    | some schema => Tag.ofScalar schema (.array items)
    | none =>
      match Width.ofArray? items with
      | some width => do
        let l ← (TagList.ofKind width.schema.kind).ofResults
          (Tag.ofNatives (some width.schema) items)
        return l.toTag
      | none => do
        let ts ← (Tag.ofNatives none items).mapM id
        return (← TagList.ofTags ts).toTag
  | .object fields =>
    match schema with
    | some (.compound schemas) => do
      return (← Tag.ofFields schemas .empty fields).toTag
    | some schema => Tag.ofScalar schema (.object fields)
    | none => do
      return (← Tag.ofFields [] .empty fields).toTag
  | v =>
    match schema with
    | some schema => Tag.ofScalar schema v
    | none => Tag.inferScalar v
termination_by structural v => v

def Tag.ofNatives (schema : Option Schema) : List Native → List (Except Fault Tag)
  | [] => []
  | v :: rest => Tag.ofNative schema v :: Tag.ofNatives schema rest
termination_by structural vs => vs

/-- Add the fields of an object to a compound, each under the schema of its name. -/
def Tag.ofFields (schemas : List (String × Schema)) (built : Compound) :
    List (String × Native) → Except Fault Compound
  | [] => .ok built
  | (name, v) :: rest =>
    match Tag.ofNative (schemas.lookup name) v with
    | .error fault => .error fault
    | .ok t =>
      match built.insert name t with
      | .error fault => .error fault
      | .ok built => Tag.ofFields schemas built rest
termination_by structural fields => fields

end

/-! ### Values from trees -/

/-- A double as a native value; what is not finite has none. -/
def nativeDouble (v : Float64Bits) : Native :=
  if v.isFinite then .real v else .null

mutual

def Tag.toNative : Tag → Native
  | .endMark => .null
  | .byte v => .integer v.toInt
  | .short v => .integer v.toInt
  | .int v => .integer v.toInt
  | .long v => .integer v.toInt
  | .float v => nativeDouble v.widen
  | .double v => nativeDouble v
  | .byteArray vs => .array (vs.map fun v => .integer v.toInt)
  | .string s => .string s
  | .list _ items => .array (Tag.toNatives items)
  | .compound entries => Native.ofFields (Tag.toFields entries)
  | .intArray vs => .array (vs.map fun v => .integer v.toInt)
  | .longArray vs => .array (vs.map fun v => .integer v.toInt)
termination_by structural t => t

def Tag.toNatives : List Tag → List Native
  | [] => []
  | t :: rest => t.toNative :: Tag.toNatives rest
termination_by structural ts => ts

def Tag.toFields : List (String × Tag) → List (String × Native)
  | [] => []
  | (name, t) :: rest => (name, t.toNative) :: Tag.toFields rest
termination_by structural es => es

end

end Nbt

end MinecraftWire
