import Schemata.Entries
import Schemata.Number.Basic

/-!
# Values, records and their types

The four types of the library refer to each other. A *value* is dynamic data and may be a *record*;
a record belongs to a *record type*; a record type declares a *field type* for each of its keys; a
field type may hold values again (its default, the members of an enumeration) and record types. They
are one nested inductive family, so every function on them is structural recursion and none needs
fuel.

## Identity

Two record types with the same declarations are still two types, and two records with the same
fields may or may not share their storage. Identity is data here. A record type carries the number
`id` it got when it was declared. A record carries the number of its `storage`: reading, building
and writing are plain functions and leave a record they make with `storage := none`, fresh, and a
session numbers the fresh storages of a result when it takes the result in. Whatever keeps a record
(storing it in a field, taking a draft of it, reading it back) keeps the number.

## Undefined

`undefined` stands for an absent value: a missing key, an argument not given. It is not `null`,
which is a value that is there.

## Limits

Properties and field types are those of the library. An accessor that a caller writes, and that may
do anything to the record it is given, has no form here, and neither has a field type with a reader
of the caller's own. What is said of all properties or of all field types does not speak of these.
-/

namespace Schemata

/-- A named accessor of the records of a type. Both forms read the field of their key. -/
inductive Property where
  /-- Assigning writes the field. -/
  | field (key : String)
  /-- Assigning refuses a record that is not a draft and then writes the field. -/
  | draftOnly (key : String)
deriving DecidableEq, Repr

mutual

/-- A dynamic value. -/
inductive Value where
  | undefined
  | null
  | bool (b : Bool)
  | num (n : Number)
  | str (s : String)
  | list (items : List Value)
  /-- A plain map, in insertion order. -/
  | map (entries : List (String × Value))
  | record (r : Record)

/-- A record: the fields of a record type, each with its value. -/
structure Record where
  type : RecordType
  /-- The identity of the field storage, or `none` for storage not yet numbered. -/
  storage : Option Nat
  /-- The values, under the keys of the schema and in its order. -/
  fields : List (String × Value)
  /-- A draft accepts writes in place. -/
  draft : Bool

/-- A record type. -/
structure RecordType where
  /-- The identity of the type. -/
  id : Nat
  label : Option String
  /-- The declared fields, in order. -/
  schema : List (String × FieldType)
  /-- The type this one was derived from. -/
  parent : Option RecordType
  /-- The accessors that this type adds to those of its ancestors. -/
  properties : List (String × Property)

/-- What a field of a record may hold. -/
inductive FieldType where
  /-- Every value. -/
  | any
  | bool (default : Option Bool)
  | num (default : Option Number)
  | str (default : Option String)
  /-- The instances of a record type. -/
  | record (type : RecordType) (default : Option Record)
  /-- What the inner type may hold, undefined and null. -/
  | optional (inner : FieldType) (default : Value)
  /-- One of the members. -/
  | enum (members : List Value) (default : Value)
  /-- The instances of the record type that the text under the key `tag` selects among the branches,
  or of the fallback type for any other text. -/
  | union (tag : String) (branches : List (String × RecordType)) (fallback : Option RecordType)

end

/-! ## Fields of a type and of a record -/

namespace RecordType

/-- The declared type of a field. -/
def field? (T : RecordType) (key : String) : Option FieldType := Entries.get? T.schema key

/-- How many fields the type declares. -/
def size (T : RecordType) : Nat := T.schema.length

/-- Whether two record types are one. -/
def identical (S T : RecordType) : Bool := S.id == T.id

end RecordType

attribute [ext] Record

namespace Record

/-- The value of a field. -/
def get? (r : Record) (key : String) : Option Value := Entries.get? r.fields key

/-- The value of a field, undefined if there is none. -/
def getD (r : Record) (key : String) : Value := (r.get? key).getD .undefined

/-- How many fields the record's type declares. -/
def size (r : Record) : Nat := r.type.size

/-- A draft with the same storage. -/
def toDraft (r : Record) : Record := { r with draft := true }

/-- The record out of draft, with the same storage. -/
def commit (r : Record) : Record := { r with draft := false }

/-- Whether two records are one: the same type and the same storage. -/
def identical (r s : Record) : Bool :=
  r.type.identical s.type && r.storage.isSome && r.storage == s.storage

end Record

/-! ## Kinds of values and keyed access -/

namespace Value

def isUndefined : Value → Bool
  | undefined => true
  | _ => false

/-- Undefined and null. -/
def isNullish : Value → Bool
  | undefined | null => true
  | _ => false

/-- Lists, maps and records. -/
def isObject : Value → Bool
  | list _ | map _ | record _ => true
  | _ => false

/-- The value under a key of a map or of a record; nothing else has keys. -/
def get? : Value → String → Option Value
  | map entries, key => Entries.get? entries key
  | record r, key => r.get? key
  | _, _ => none

/-- The value under a key, undefined if there is none. -/
def getD (v : Value) (key : String) : Value := (v.get? key).getD .undefined

/-- Whether a key is an entry of a map or a declared field of a record. -/
def hasKey : Value → String → Bool
  | map entries, key => Entries.contains entries key
  | record r, key => (r.type.field? key).isSome
  | _, _ => false

/-! ## The contents of a value of one kind -/

def bool? : Value → Option Bool
  | bool b => some b
  | _ => none

def num? : Value → Option Number
  | num n => some n
  | _ => none

def str? : Value → Option String
  | str s => some s
  | _ => none

/-- The entries of a plain map. -/
def entries? : Value → Option (Entries Value)
  | map entries => some entries
  | _ => none

def record? : Value → Option Record
  | record r => some r
  | _ => none

end Value

end Schemata
