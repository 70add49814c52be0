import MinecraftWire.Toml.Statement

/-! TOML documents: the table that the statements of a text build. -/

namespace MinecraftWire.Toml

/-- A document while it is built, and the path of the table that takes the next pairs. -/
structure Builder where
  root : Entries
  here : List String

namespace Builder

/-- Open the table of a header. One that was only passed through before moves to the end. -/
def openTable (key : String) (_ : Origin) (entries : Entries) : Option Entries :=
  match entries.lookup key with
  | none => some (entries ++ [(key, .table .header [])])
  | some (.table .path sub) => some (Entries.erase key entries ++ [(key, .table .header sub)])
  | some _ => none

/-- Open one more of the tables of a name. -/
def openNext (key : String) (_ : Origin) (entries : Entries) : Option Entries :=
  match entries.lookup key with
  | none => some (entries ++ [(key, .tables [] [])])
  | some (.tables last earlier) => some (Entries.set key (.tables [] (last :: earlier)) entries)
  | some _ => none

/-- Change the table at the end of a path of headers. -/
def change (f : Origin → Entries → Option Entries) (path : List String) (b : Builder) :
    Option Entries :=
  Entries.change false f .header path b.root

def step (b : Builder) : Statement → Option Builder
  | .table path =>
    (b.change (openTable (path.getLastD "")) path.dropLast).map (⟨·, path⟩)
  | .tables path =>
    (b.change (openNext (path.getLastD "")) path.dropLast).map (⟨·, path⟩)
  | .pair path key v => (b.change (Entries.put path key v) b.here).map (⟨·, b.here⟩)

end Builder

def ofStatements? (statements : List Statement) : Option Entries :=
  (statements.foldlM Builder.step ⟨[], []⟩).map (·.root)

/-- A text without the byte order mark at its front. -/
def withoutMark : List Char → List Char
  | '\uFEFF' :: cs => cs
  | cs => cs

/-- The table of a whole text. -/
def parse? (text : String) : Option Entries :=
  (statements? (withoutMark text.toList)).bind ofStatements?

end MinecraftWire.Toml
