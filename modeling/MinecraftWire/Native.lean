import MinecraftWire.FixedWidth

/-! Values as JSON has them. Integers that fit 64 bits, signed or not, stay integers; all other numbers
are doubles. The fields of an object are kept in ascending order of their names, each name once. -/

namespace MinecraftWire

inductive Native where
  | null
  | bool (b : Bool)
  | integer (n : Int)
  | real (v : Float64Bits)
  | string (s : String)
  | array (items : List Native)
  | object (fields : List (String × Native))
  deriving Repr, Inhabited

namespace Native

/-- Of neighbouring fields of one name, the last. -/
def lastOfEach : List (String × Native) → List (String × Native)
  | [] => []
  | [field] => [field]
  | field :: next :: rest =>
    if field.1 = next.1 then lastOfEach (next :: rest) else field :: lastOfEach (next :: rest)

/-- An object with the given fields; of fields with one name the last counts. -/
def ofFields (fields : List (String × Native)) : Native :=
  .object (lastOfEach (fields.mergeSort fun a b => !decide (b.1 < a.1)))

end Native

end MinecraftWire
