/-! Protocol versions and the rule that finds layouts for a version that has none of its own: it
takes those of the nearest older supported version. -/

namespace MinecraftWire

/-- A protocol version, as the number sent in a handshake. -/
structure Version where
  number : Int
  deriving DecidableEq, Repr, Inhabited

namespace Version

/-- The game release of a protocol version, where it is known. -/
def release? (v : Version) : Option String :=
  match v.number with
  | 47 => some "1.8"
  | 340 => some "1.12.2"
  | 754 => some "1.16.5"
  | 757 => some "1.18.1"
  | 758 => some "1.18.2"
  | 759 => some "1.19"
  | 760 => some "1.19.2"
  | 761 => some "1.19.3"
  | 762 => some "1.19.4"
  | 763 => some "1.20.1"
  | _ => none

def text (v : Version) : String :=
  match v.release? with
  | some release => toString v.number ++ " (" ++ release ++ ")"
  | none => toString v.number

/-- Versions with packet layouts of their own, ascending. -/
def supported : List Version :=
  [⟨47⟩, ⟨340⟩, ⟨754⟩, ⟨757⟩, ⟨759⟩, ⟨760⟩, ⟨761⟩, ⟨763⟩]

/-- Versions that share every layout with an older supported one. -/
def compatible : List (Version × Version) :=
  [(⟨758⟩, ⟨757⟩), (⟨762⟩, ⟨761⟩)]

def latest : Version := ⟨763⟩

def isSupported (v : Version) : Bool :=
  supported.contains v

/-- How a version came by its layouts. -/
inductive Fallback where
  /-- They are its own. -/
  | exact
  /-- They are those of an older version known to agree. -/
  | compatible
  /-- They are those of the nearest older version and may differ. -/
  | nearest
  deriving DecidableEq, Repr

def Fallback.name : Fallback → String
  | exact => "exact"
  | compatible => "compatible"
  | nearest => "nearest"

structure Resolution where
  requested : Version
  effective : Version
  fallback : Fallback
  deriving DecidableEq, Repr

/-- The version whose layouts `v` uses; `none` below every supported version. -/
def resolve? (v : Version) : Option Resolution :=
  if v.isSupported then
    some ⟨v, v, .exact⟩
  else
    (supported.reverse.find? fun s => s.number < v.number).map fun nearest =>
      ⟨v, nearest, if compatible.contains (v, nearest) then .compatible else .nearest⟩

end Version

end MinecraftWire
