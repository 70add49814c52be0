import MinecraftWire.Toml.Quoted

/-! TOML values and tables. The keys of a table are distinct and keep their order. -/

namespace MinecraftWire.Toml

/-- How a table came to be, which decides what may still be put into it. -/
inductive Origin where
  /-- It stands under a header of its own. -/
  | header
  /-- It lies on the way to the table of a header. -/
  | path
  /-- It was made by the dots of a key. -/
  | dots
  /-- It is written in braces. -/
  | inline
  deriving DecidableEq, Repr

inductive Value where
  | string (s : String)
  | integer (n : Int)
  /-- The number is not kept. -/
  | float
  | boolean (b : Bool)
  /-- The date or time is not kept. -/
  | dateTime
  | array (items : List Value)
  | table (origin : Origin) (entries : List (String × Value))
  /-- Tables under headers in double brackets: the entries of the last, and the tables before it, last
  first. -/
  | tables (last : List (String × Value)) (earlier : List (List (String × Value)))
  deriving Inhabited

/-- The entries of a table. -/
abbrev Entries := List (String × Value)

namespace Entries

/-- Put a value in the place of a key's, or at the end. -/
def set (key : String) (v : Value) : Entries → Entries
  | [] => [(key, v)]
  | (other, old) :: rest =>
    if other = key then (other, v) :: rest else (other, old) :: set key v rest

def erase (key : String) (entries : Entries) : Entries :=
  entries.filter fun e => e.1 != key

/-- Put a value under a key that has none yet. -/
def add (key : String) (v : Value) (entries : Entries) : Option Entries :=
  match entries.lookup key with
  | some _ => none
  | none => some (entries ++ [(key, v)])

/-- Change the table at the end of a path. Tables that are missing on the way are made. In a path of
headers a way leads through every table that is not written in braces, in one of dots only through
those that have no header of their own; both go on in the last of several tables. -/
def change (dots : Bool) (f : Origin → Entries → Option Entries) (origin : Origin) :
    (path : List String) → Entries → Option Entries
  | [], entries => f origin entries
  | key :: path, entries =>
    match entries.lookup key with
    | none =>
      let made : Origin := if dots then .dots else .path
      match change dots f made path [] with
      | some sub => some (entries ++ [(key, .table made sub)])
      | none => none
    | some (.table origin sub) =>
      if origin = .inline ∨ (dots ∧ origin = .header) then none
      else
        match change dots f origin path sub with
        | some sub => some (set key (.table origin sub) entries)
        | none => none
    | some (.tables last earlier) =>
      match change dots f .header path last with
      | some last => some (set key (.tables last earlier) entries)
      | none => none
    | some _ => none

/-- Put a value under a key with dots. The table it goes into must have been made by dots too. -/
def put (path : List String) (key : String) (v : Value) (origin : Origin) (entries : Entries) :
    Option Entries :=
  change true
    (fun here entries => if path.isEmpty ∨ here = .dots then add key v entries else none)
    origin path entries

end Entries

end MinecraftWire.Toml
