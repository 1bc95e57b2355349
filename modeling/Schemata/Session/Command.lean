import Schemata.Json

/-!
# Commands of a session

A session works with names. A *term* writes down a value, in which a name stands for the value bound
to it, and a *spec term* writes down the declaration of a field. A *command* is one operation of the
library on terms and names; a *step* is a command and, if its result is to be kept, the name for it.

Not everything that a caller could do is a command. A derived type gets properties that read and
assign the field of a key, and no others. A record field is declared by a record type, and then has
no default, or by a record, and then has this for its default and the type of it for its type. One
with a default of another type is a field type too, but no spec term stands for it.
-/

namespace Schemata

/-- A value written down with names in it. -/
inductive Term where
  | undefined
  | null
  | bool (b : Bool)
  | num (n : Number)
  | str (s : String)
  | list (items : List Term)
  /-- A map; of a repeated key the last value stays, at the position of the first. -/
  | map (entries : List (String × Term))
  /-- The value bound to a name. -/
  | name (name : String)

/-- The declaration of a field written down with names in it. -/
inductive SpecTerm where
  | any
  | bool
  | num
  | str
  | literal (t : Term)
  /-- The record type bound to a name. -/
  | recordType (name : String)
  /-- The field type bound to a name. -/
  | fieldType (name : String)

/-- An operation of a session. A name in the place of a record stands for the record bound to it. -/
inductive Command where
  /-- Declares a root type. -/
  | declare (fields : List (String × SpecTerm)) (label : Option String)
  /-- Extends a record type by name. -/
  | extend (base : String) (fields : List (String × SpecTerm)) (label : Option String)
  /-- Extends the record type that a spec stands for. -/
  | extendSpec (base : SpecTerm) (fields : List (String × SpecTerm)) (label : Option String)
  /-- Derives a type with the same schema and another label. -/
  | relabel (base label : String)
  /-- Derives a type with a schema and properties, each reading and assigning the field of a key. -/
  | derive (base : String) (schema : List (String × SpecTerm)) (properties : List (String × String))
    (label : Option String)
  /-- The field type that a spec stands for. -/
  | resolve (spec : SpecTerm)
  /-- Declares an optional. -/
  | optionalOf (spec : SpecTerm) (default : Term)
  /-- Declares an enumeration. -/
  | enumOf (members : List Term) (default : Term)
  /-- Declares an enumeration of the items of a list. -/
  | enumOfList (members default : Term)
  /-- Declares a union. -/
  | unionOf (tag : String) (branches : List (String × SpecTerm)) (fallback : Option SpecTerm)
  /-- Reads a value through the field type that a spec stands for. -/
  | read (spec : SpecTerm) (value : Term)
  /-- Builds a record. -/
  | construct (type : String) (value : Term)
  /-- Sets a field of a copy. -/
  | set (record key : String) (value : Term)
  /-- Sets a field of a copy to its default. -/
  | reset (record key : String)
  /-- Sets the value at the end of a path in a copy. -/
  | setIn (record : String) (path : List String) (value : Term)
  /-- Takes a draft. -/
  | toDraft (record : String)
  /-- Takes a record out of draft. -/
  | commit (record : String)
  /-- Sets a field of the record bound to the name, in place. -/
  | write (record key : String) (value : Term)
  /-- Assigns a property of the record bound to the name, in place. -/
  | assign (record property : String) (value : Term)
  /-- The value of a field. -/
  | get (record key : String)
  /-- The value at the end of a path. -/
  | getIn (record : String) (path : List String)
  /-- The value of a property. -/
  | property (record name : String)
  /-- A value as written. -/
  | value (t : Term)
  /-- A JSON value as a value. -/
  | json (j : Json)
  /-- An integer as a number. -/
  | integer (i : Int)

/-- A command and the name that its result is bound to, if it is kept. -/
structure Step where
  command : Command
  binding : Option String

end Schemata
