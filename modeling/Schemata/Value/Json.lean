import Schemata.Json
import Schemata.Value.Basic

/-!
# Values as JSON

Every value has a JSON form, which forgets what JSON cannot say: an undefined entry of a map or
field of a record is left out and any other undefined becomes `null`, as do the numbers that are not
finite; a record becomes the object of its fields. Every JSON value is a value, with its objects as
maps: of a key given twice the last value stays, at the position of the first.
-/

namespace Schemata

namespace Value

mutual

/-- The JSON form of a value. -/
def toJson : Value → Json
  | .undefined => .null
  | .null => .null
  | .bool b => .bool b
  | .num n => if n.isFinite then .number n else .null
  | .str s => .string s
  | .list items => .array (itemsToJson items)
  | .map entries => .object (entriesToJson entries)
  | .record ⟨_, _, fields, _⟩ => .object (entriesToJson fields)
termination_by structural v => v

/-- The JSON forms of the items of a list. -/
def itemsToJson : List Value → List Json
  | [] => []
  | v :: rest => v.toJson :: itemsToJson rest
termination_by structural vs => vs

/-- The JSON forms of the entries that are not undefined. -/
def entriesToJson : List (String × Value) → List (String × Json)
  | [] => []
  | (key, v) :: rest =>
    if v.isUndefined then entriesToJson rest else (key, v.toJson) :: entriesToJson rest
termination_by structural es => es

end

end Value

namespace Json

mutual

/-- A JSON value as a value. -/
def toValue : Json → Value
  | .null => .null
  | .bool b => .bool b
  | .number n => .num n
  | .string s => .str s
  | .array items => .list (itemsToValues items)
  | .object entries => .map (Entries.ofList (entriesToValues entries))
termination_by structural j => j

/-- The items of an array as values. -/
def itemsToValues : List Json → List Value
  | [] => []
  | j :: rest => j.toValue :: itemsToValues rest
termination_by structural js => js

/-- The entries of an object as values. -/
def entriesToValues : List (String × Json) → List (String × Value)
  | [] => []
  | (key, j) :: rest => (key, j.toValue) :: entriesToValues rest
termination_by structural es => es

end

end Json

end Schemata
