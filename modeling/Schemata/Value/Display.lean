import Schemata.Value.Json

/-!
# Display texts

The text of a value in messages and names. A string is its own text, the items of a list are joined
by commas and the nullish ones are empty, a map is written as JSON, and a record as its type's label
followed by its fields.
-/

namespace Schemata

/-- `label { "key": json, … }`, with `Record` for a type without a label. -/
def Record.display (r : Record) : String :=
  let fields := r.fields.map fun (key, v) ↦ " \"" ++ key ++ "\": " ++ v.toJson.render
  r.type.label.getD "Record" ++ " \x7b" ++ ",".intercalate fields ++ " \x7d"

namespace Value

mutual

/-- The display text of a value. -/
def display : Value → String
  | .undefined => "undefined"
  | .null => "null"
  | .bool b => if b then "true" else "false"
  | .num n => n.displayText
  | .str s => s
  | .list items => ",".intercalate (displayItems items)
  | .map entries => (Value.map entries).toJson.render
  | .record r => r.display
termination_by structural v => v

/-- The texts of the items of a list. -/
def displayItems : List Value → List String
  | [] => []
  | v :: rest => (if v.isNullish then "" else v.display) :: displayItems rest
termination_by structural vs => vs

end

end Value

end Schemata
