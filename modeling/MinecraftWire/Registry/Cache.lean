import MinecraftWire.Registry.Table

/-! The registry of packet tables. A table is built when a version first needs it, under that
version's effective version, and kept. -/

namespace MinecraftWire

/-- A table that the registry has published. Its number tells it from every other. -/
structure PublishedTable where
  number : Nat
  table : PacketTable

structure Registry where
  published : List (Version × PublishedTable)

/-- What a registry operation gives: its outcome, the warnings about older layouts, and the registry
afterwards. -/
structure Registry.Answer (α : Type) where
  outcome : Except Fault α
  warnings : List Version.Resolution
  registry : Registry

namespace Registry

def empty : Registry := ⟨[]⟩

/-- The number of versions with a published table. -/
def cached (r : Registry) : Nat :=
  r.published.length

def find? (r : Registry) (effective : Version) : Option PublishedTable :=
  (r.published.find? (·.1 == effective)).map (·.2)

/-- Publish a table under a version, unless the version has one already. -/
def publish (r : Registry) (effective : Version) (table : PacketTable) : PublishedTable × Registry :=
  match r.find? effective with
  | some published => (published, r)
  | none =>
    let published := ⟨r.published.length, table⟩
    (published, ⟨r.published ++ [(effective, published)]⟩)

/-- Resolve a version, with a warning when its layouts may differ from those it gets. -/
def resolution (v : Version) (r : Registry) : Answer Version.Resolution :=
  match v.resolve with
  | .error fault => ⟨.error fault, [], r⟩
  | .ok resolution =>
    ⟨.ok resolution, if resolution.fallback = .nearest then [resolution] else [], r⟩

/-- The table of a version's effective version. -/
def table (v : Version) (r : Registry) : Answer PublishedTable :=
  match r.resolution v with
  | ⟨.error fault, warnings, r⟩ => ⟨.error fault, warnings, r⟩
  | ⟨.ok resolution, warnings, r⟩ =>
    match r.find? resolution.effective with
    | some published => ⟨.ok published, warnings, r⟩
    | none =>
      match PacketTable.build resolution.effective with
      | .error fault => ⟨.error fault, warnings, r⟩
      | .ok table =>
        let (published, r) := r.publish resolution.effective table
        ⟨.ok published, warnings, r⟩

def resolve (v : Version) (state : ConnectionState) (direction : Direction) (r : Registry) :
    Answer PacketSet :=
  let answer := r.table v
  ⟨answer.outcome.map (·.table.set state direction), answer.warnings, answer.registry⟩

def lookup (v : Version) (state : ConnectionState) (direction : Direction) (id : Int32)
    (r : Registry) : Answer PacketType :=
  let answer := r.resolve v state direction
  ⟨answer.outcome.bind (·.lookup id), answer.warnings, answer.registry⟩

end Registry

end MinecraftWire
