import Std.Data.HashMap
import MinecraftWire.Nbt.Tag

/-! Lists and compounds while they are built. A list takes elements of one kind only, and no end
marks; a compound takes children under distinct names that are not empty, and no end marks. -/

namespace MinecraftWire.Nbt

/-! ### Lists -/

/-- A list under construction. The kind is that of an end mark until it is declared or an element
settles it. -/
structure TagList where
  kind : TagKind
  items : Array Tag
  deriving Inhabited

namespace TagList

/-- The empty list that takes any kind of element first. -/
def empty : TagList := ⟨.endMark, #[]⟩

def ofKind (kind : TagKind) : TagList := ⟨kind, #[]⟩

def push (t : Tag) (l : TagList) : Except Fault TagList :=
  if t.kind = .endMark then .error (.structural .endElement)
  else if l.kind = .endMark then .ok ⟨t.kind, l.items.push t⟩
  else if l.kind = t.kind then .ok ⟨l.kind, l.items.push t⟩
  else .error (.structural (.elementKind l.kind t.kind l.items.size))

def pushAll (ts : List Tag) (l : TagList) : Except Fault TagList :=
  ts.foldlM (fun l t => l.push t) l

def ofTags (ts : List Tag) : Except Fault TagList :=
  empty.pushAll ts

def size (l : TagList) : Nat := l.items.size

def get? (l : TagList) (i : Nat) : Option Tag := l.items[i]?

def toTag (l : TagList) : Tag := .list l.kind l.items.toList

end TagList

/-! ### Compounds -/

/-- A compound under construction: its entries in order, and where each name stands. -/
structure Compound where
  entries : Array (String × Tag)
  index : Std.HashMap String Nat
  deriving Inhabited

namespace Compound

def empty : Compound := ⟨#[], ∅⟩

/-- Add a child at the end. -/
def insert (name : String) (t : Tag) (c : Compound) : Except Fault Compound :=
  if name.isEmpty then .error (.structural .emptyName)
  else if t.kind = .endMark then .error (.structural (.endChild name))
  else if c.index.contains name then .error (.structural (.duplicateChild name))
  else .ok ⟨c.entries.push (name, t), c.index.insert name c.entries.size⟩

def insertAll (entries : List (String × Tag)) (c : Compound) : Except Fault Compound :=
  entries.foldlM (fun c e => c.insert e.1 e.2) c

def ofEntries (entries : List (String × Tag)) : Except Fault Compound :=
  empty.insertAll entries

def get? (name : String) (c : Compound) : Option Tag :=
  match c.index[name]? with
  | some i => c.entries[i]?.map (·.2)
  | none => none

def contains (name : String) (c : Compound) : Bool :=
  c.index.contains name

/-- Put a value in the place of a child's, whatever it is, and tell the old one. -/
def replace (name : String) (t : Tag) (c : Compound) : Option Tag × Compound :=
  match c.index[name]? with
  | some i => (c.entries[i]?.map (·.2), { c with entries := c.entries.modify i fun e => (e.1, t) })
  | none => (none, c)

/-- Take a child out; those after it move up. -/
def remove (name : String) (c : Compound) : Option Tag × Compound :=
  match c.index[name]? with
  | some i =>
    (c.entries[i]?.map (·.2),
      ⟨c.entries.eraseIdxIfInBounds i,
        (c.index.erase name).map fun _ j => if i < j then j - 1 else j⟩)
  | none => (none, c)

def size (c : Compound) : Nat := c.entries.size

def toTag (c : Compound) : Tag := .compound c.entries.toList

end Compound

end MinecraftWire.Nbt
