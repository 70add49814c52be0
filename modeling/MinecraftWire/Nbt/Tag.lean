import MinecraftWire.Number.Binary

/-! NBT trees. The elements of a list have no names; the children of a compound have, and keep the
order in which they were added. -/

namespace MinecraftWire.Nbt

/-- The kind of a type byte. -/
def TagKind.ofByte (b : UInt8) : Except Fault TagKind :=
  match ofId? b with
  | some kind => .ok kind
  | none => .error (.format (.nbt (.typeByte b)))

inductive Tag where
  | endMark
  | byte (v : Int8)
  | short (v : Int16)
  | int (v : Int32)
  | long (v : Int64)
  | float (v : Float32Bits)
  | double (v : Float64Bits)
  | byteArray (vs : List Int8)
  | string (s : String)
  | list (kind : TagKind) (items : List Tag)
  | compound (entries : List (String × Tag))
  | intArray (vs : List Int32)
  | longArray (vs : List Int64)
  deriving Repr, Inhabited

namespace Tag

def kind : Tag → TagKind
  | endMark => .endMark
  | byte _ => .byte
  | short _ => .short
  | int _ => .int
  | long _ => .long
  | float _ => .float
  | double _ => .double
  | byteArray _ => .byteArray
  | string _ => .string
  | list _ _ => .list
  | compound _ => .compound
  | intArray _ => .intArray
  | longArray _ => .longArray

/-- A truth value is the byte 0 or 1. -/
def ofBool (b : Bool) : Tag :=
  byte (if b then 1 else 0)

/-- The tag of an integer kind that holds `n`, if it fits. -/
def integer (kind : TagKind) (n : Int) : Except Fault Tag :=
  match kind with
  | .byte => (narrowAs kind.name Int8 n).map byte
  | .short => (narrowAs kind.name Int16 n).map short
  | .int => (narrowAs kind.name Int32 n).map int
  | .long => (narrowAs kind.name Int64 n).map long
  | _ => .error (.schemaMismatch "an integer kind" kind.name)

/-- The value of an integer tag. -/
def toInt? : Tag → Option Int
  | byte v => some v.toInt
  | short v => some v.toInt
  | int v => some v.toInt
  | long v => some v.toInt
  | _ => none

/-- The value of a numeric tag as a double. -/
def toDouble? : Tag → Option Float64Bits
  | float v => some v.widen
  | double v => some v
  | t => t.toInt?.map Float64Bits.ofInt

end Tag

/-- A tree with the name that may head it. -/
structure Root where
  name : Option String
  tag : Tag
  deriving Repr, Inhabited

/-! ### Equality -/

/-- How far apart floating-point values may be and still count as equal. -/
def tolerance : Float64Bits := .ofRatio false 1 1000000

theorem sizeOf_lt_of_lookup {es : List (String × Tag)} {name : String} {t : Tag}
    (h : es.lookup name = some t) : sizeOf t < sizeOf es := by
  obtain ⟨front, back, rfl, -⟩ := List.lookup_eq_some_iff.mp h
  have hentry : sizeOf (name, t) < sizeOf (front ++ (name, t) :: back) :=
    List.sizeOf_lt_of_mem (List.mem_append_right _ List.mem_cons_self)
  rw [Prod.mk.sizeOf_spec] at hentry
  omega

mutual

/-- Equality of trees: the order of a compound's children does not matter, nor does the kind of an
empty list, and floating-point values may differ by the tolerance. -/
def Tag.equal (t u : Tag) : Bool :=
  match t, u with
  | .endMark, .endMark => true
  | .byte a, .byte b => a == b
  | .short a, .short b => a == b
  | .int a, .int b => a == b
  | .long a, .long b => a == b
  | .float a, .float b => Float64Bits.near tolerance a.widen b.widen
  | .double a, .double b => Float64Bits.near tolerance a b
  | .byteArray a, .byteArray b => a == b
  | .string a, .string b => a == b
  | .list k as, .list l bs => Tag.equalItems as bs && (k == l || as.isEmpty)
  | .compound as, .compound bs => as.length == bs.length && Tag.equalEntries as bs
  | .intArray a, .intArray b => a == b
  | .longArray a, .longArray b => a == b
  | _, _ => false
termination_by sizeOf t + sizeOf u

def Tag.equalItems (ts us : List Tag) : Bool :=
  match ts, us with
  | [], [] => true
  | a :: as, b :: bs => if a.equal b then Tag.equalItems as bs else false
  | _, _ => false
termination_by sizeOf ts + sizeOf us

/-- Whether every entry has one of its name on the other side, whose value is equal to its own. -/
def Tag.equalEntries (es fs : List (String × Tag)) : Bool :=
  match es with
  | [] => true
  | (name, a) :: es =>
    match _h : fs.lookup name with
    | some b => if b.equal a then Tag.equalEntries es fs else false
    | none => false
termination_by sizeOf es + sizeOf fs
decreasing_by
  · have := sizeOf_lt_of_lookup _h
    simp_wf
    omega
  · decreasing_tactic

end

instance : BEq Tag := ⟨Tag.equal⟩

def Root.equal (a b : Root) : Bool :=
  a.name == b.name && a.tag.equal b.tag

end MinecraftWire.Nbt
