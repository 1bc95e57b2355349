import Schemata.Record.Write

/-!
# Nested reads and writes

A path is a list of keys that leads through records and plain maps. A nested write walks down the
path, puts the value at its end and commits each level on the way back through the type of the field
that holds it, the innermost first; whatever is missing or nullish on the way down becomes a plain
map.

A walk can stop early at a record that does not declare the next key, or at a value that has no
keys. The path in the text of the latter error starts at the innermost record on the way.
-/

namespace Schemata

/-! ## Reading -/

/-- The value at the end of a path. -/
def Value.getIn? : Value → List String → Option Value
  | v, [] => some v
  | v, key :: rest => (v.get? key).bind (getIn? · rest)

/-- The value at the end of a path that is not empty. -/
def Record.getIn? (r : Record) : List String → Option Value
  | [] => none
  | key :: rest => (r.get? key).bind (·.getIn? rest)

/-! ## Writing -/

/-- The record with the field `key` set to what `change` makes of its value. -/
def Record.update (r : Record) (key : String) (change : Value → Except RecordError Value) :
    Except RecordError Record :=
  match r.type.field? key with
  | none => .error (.unknownField key r.type.name)
  | some _ =>
    match change (r.getD key) with
    | .error e => .error e
    | .ok v => r.set key v

/-- The value `target` with `v` at the end of a path; `whole` is the path that an error reports. -/
def Value.setIn (whole : List String) (target : Value) : List String → Value →
    Except RecordError Value
  | [], v => .ok v
  | key :: rest, v =>
    match target with
    | .record r =>
      (r.update key fun current ↦ setIn (key :: rest) current rest v).map .record
    | .map entries =>
      (setIn whole ((Entries.get? entries key).getD .undefined) rest v).map fun x ↦
        .map (Entries.put entries key x)
    | .undefined | .null => (setIn whole .undefined rest v).map fun x ↦ .map [(key, x)]
    | other => .error (.notAContainer whole other.display)

/-- The record with `v` at the end of a path. -/
def Record.setIn (r : Record) : List String → Value → Except RecordError Record
  | [], _ => .error .emptyPath
  | key :: rest, v => r.update key fun current ↦ current.setIn (key :: rest) rest v

/-- At a field that there is, an update sets what its change gives. -/
theorem Record.update_of_field? {r : Record} {key : String} {F : FieldType}
    (hF : r.type.field? key = some F) (change : Value → Except RecordError Value) :
    r.update key change = change (r.getD key) >>= r.set key := by
  rw [update, hF]
  cases change (r.getD key) <;> rfl

theorem Record.setIn_of_field? {r : Record} {key : String} {F : FieldType}
    (hF : r.type.field? key = some F) (rest : List String) (v : Value) :
    r.setIn (key :: rest) v = (r.getD key).setIn (key :: rest) rest v >>= r.set key := by
  rw [setIn, update_of_field? hF]

/-- Setting a field is a nested write along one key. -/
theorem Record.setIn_singleton (r : Record) (key : String) (v : Value) :
    r.setIn [key] v = r.set key v := by
  cases h : r.type.field? key <;> simp [setIn, update, set_eq, h, Value.setIn]

/-- Below a record a nested write is one of its own. -/
theorem Value.setIn_record (whole : List String) (r : Record) (key : String) (rest : List String)
    (v : Value) :
    (Value.record r).setIn whole (key :: rest) v = (r.setIn (key :: rest) v).map .record := rfl

end Schemata
