import MinecraftWire.Nbt.Reader
import MinecraftWire.Text.Field

/-! Writing the binary form of NBT. What is left to write of open lists and compounds is kept on a
stack, innermost first. -/

namespace MinecraftWire.Nbt

/-- The most bytes of a text or name. -/
def maxTextBytes : Nat := 32767

/-- The most elements of an array or list. -/
def maxElements : Nat := 2 ^ 31 - 1

namespace Write

/-! ### Parts -/

/-- A text or name: UTF-8 behind its length. -/
def text (s : String) : Except Fault Bytes :=
  if s.utf8ByteSize ≤ maxTextBytes then
    .ok (FixedWidth.put (Int16.ofNat s.utf8ByteSize) ++ Utf8.encode s)
  else
    .error (.range ⟨TagKind.string.name, .bytes s.utf8ByteSize, .number 0, .number maxTextBytes⟩)

def count (kind : TagKind) (n : Nat) : Except Fault Bytes :=
  if n ≤ maxElements then .ok (FixedWidth.put (Int32.ofNat n))
  else .error (.range ⟨kind.name, .elements n, .number 0, .number maxElements⟩)

def array {α : Type} [FixedWidth α] (kind : TagKind) (vs : List α) : Except Fault Bytes :=
  (count kind vs.length).map fun n => n ++ vs.flatMap FixedWidth.put

/-- The payload of a tag that holds no others. -/
def scalar : Tag → Except Fault Bytes
  | .endMark => .ok []
  | .byte v => .ok (FixedWidth.put v)
  | .short v => .ok (FixedWidth.put v)
  | .int v => .ok (FixedWidth.put v)
  | .long v => .ok (FixedWidth.put v)
  | .float v => .ok (FixedWidth.put v)
  | .double v => .ok (FixedWidth.put v)
  | .byteArray vs => array .byteArray vs
  | .string s => text s
  | .intArray vs => array .intArray vs
  | .longArray vs => array .longArray vs
  | t => .error (.format (.nbt (.notScalar t.kind)))

/-- What stands before the elements of a list. An empty one is written as a list of end marks. -/
def listHeading (element : TagKind) (items : List Tag) : Pieces :=
  [.ok [if items.isEmpty then TagKind.endMark.id else element.id], count .list items.length]

/-- What stands before the payload of a compound's child. -/
def childHeading (name : String) (t : Tag) : Pieces :=
  [.ok [t.kind.id], text name]

/-! ### Open lists and compounds -/

/-- A container and those of its children that are still to be written. -/
inductive Open where
  | list (rest : List Tag)
  | compound (rest : List (String × Tag))

def checkDepth (stack : List Open) : Except Fault Bytes :=
  if stack.length < maxDepth then .ok [] else .error (.format (.nbt .nesting))

/-- What a tag puts out before any of its children, and the stack with the tag on it if it is a
container. -/
def enter (stack : List Open) : Tag → Pieces × List Open
  | .list element items => (checkDepth stack :: listHeading element items, .list items :: stack)
  | .compound entries => ([checkDepth stack], .compound entries :: stack)
  | t => ([scalar t], stack)

/-- Go on with the innermost container: what it puts out before its next child, that child, and the
stack. A container without another child is closed. -/
def climb : Open → List Open → Pieces × Option Tag × List Open
  | .list [], stack => ([], none, stack)
  | .list (t :: rest), stack => ([], some t, .list rest :: stack)
  | .compound [], stack => ([.ok [TagKind.endMark.id]], none, stack)
  | .compound ((name, t) :: rest), stack => (childHeading name t, some t, .compound rest :: stack)

mutual

/-- A bound on the steps that writing a tag takes. -/
def tagWeight : Tag → Nat
  | .list _ items => 2 + itemsWeight items
  | .compound entries => 2 + entriesWeight entries
  | _ => 1
termination_by structural t => t

def itemsWeight : List Tag → Nat
  | [] => 0
  | t :: rest => 1 + tagWeight t + itemsWeight rest
termination_by structural ts => ts

def entriesWeight : List (String × Tag) → Nat
  | [] => 0
  | (_, t) :: rest => 1 + tagWeight t + entriesWeight rest
termination_by structural es => es

end

def Open.weight : Open → Nat
  | .list rest => 1 + itemsWeight rest
  | .compound rest => 1 + entriesWeight rest

def weight (next : Option Tag) (stack : List Open) : Nat :=
  (next.elim 0 tagWeight) + (stack.map Open.weight).sum

theorem weight_enter (t : Tag) (stack : List Open) :
    weight none (enter stack t).2 < weight (some t) stack := by
  cases t <;> simp only [enter, weight, Option.elim, tagWeight, List.map_cons, List.sum_cons,
    Open.weight] <;> omega

theorem weight_climb (top : Open) (stack : List Open) :
    weight (climb top stack).2.1 (climb top stack).2.2 < weight none (top :: stack) := by
  rcases top with (_ | ⟨t, rest⟩) | (_ | ⟨⟨name, t⟩, rest⟩) <;>
    simp only [climb, weight, Option.elim, List.map_cons, List.sum_cons, Open.weight, itemsWeight,
      entriesWeight] <;> omega

/-- Write a tag, if there is one, and then what is left on the stack. `done` is the output before, last
byte first. What is put out before a fault stays. -/
def run (next : Option Tag) (stack : List Open) (done : Bytes) : Bytes × Option Fault :=
  match next, stack with
  | some t, stack =>
    match (enter stack t).1.assemble with
    | (bytes, some fault) => (bytes.reverseAux done, some fault)
    | (bytes, none) => run none (enter stack t).2 (bytes.reverseAux done)
  | none, [] => (done, none)
  | none, top :: stack =>
    match (climb top stack).1.assemble with
    | (bytes, some fault) => (bytes.reverseAux done, some fault)
    | (bytes, none) => run (climb top stack).2.1 (climb top stack).2.2 (bytes.reverseAux done)
termination_by weight next stack
decreasing_by
  · exact weight_enter t stack
  · exact weight_climb top stack

/-- Append the payload of a tag to the output, as far as it can be written, and tell the fault that
ended it. -/
def append (t : Tag) (out : Bytes) : Bytes × Option Fault :=
  match run (some t) [] out.reverse with
  | (done, fault) => (done.reverse, fault)

def payload (t : Tag) : Bytes × Option Fault :=
  append t []

end Write

/-- The form of a root. An end mark is its type byte alone, whatever the header. -/
def Root.encode (header : Header) (root : Root) : Except Fault Bytes :=
  if root.tag.kind = .endMark then .ok [TagKind.endMark.id]
  else
    let name : Pieces :=
      match header with
      | .named => [Write.text (root.name.getD "")]
      | .unnamed => []
    match Pieces.bytes (.ok [root.tag.kind.id] :: name), Write.payload root.tag with
    | .error fault, _ => .error fault
    | .ok _, (_, some fault) => .error fault
    | .ok heading, (bytes, none) => .ok (heading ++ bytes)

def Root.toBytes (root : Root) : Except Fault Bytes :=
  root.encode .named

/-- Write a root in one piece. One that cannot be encoded leaves the sink alone. -/
def Root.write (header : Header) (root : Root) (s : Sink) : Except Fault Unit × Sink :=
  match root.encode header with
  | .error fault => (.error fault, s)
  | .ok bytes => s.write bytes

end MinecraftWire.Nbt
