import Schemata.FieldType.Declare

/-!
# Declaring record types

A record type is declared from the specs of its fields, or derived from another one: extended by
further fields, given another label, or given a schema and properties outright. Every declaration
takes the identity `id` of the type that it makes.

A root type has a property for each of its fields, under the field's key; an extension adds one for
each field that it declares, and these refuse to write to anything but a draft.
-/

namespace Schemata

/-- The field types of a list of declarations; the first that names no type is refused. -/
def resolveFields : List (String × FieldSpec) → Except DeclarationError (List (String × FieldType))
  | [] => .ok []
  | (key, spec) :: rest =>
    match spec.resolve with
    | none => .error (.unresolvedField key)
    | some F => (resolveFields rest).map ((key, F) :: ·)

namespace RecordType

/-- A root type with the given fields. -/
def declare (id : Nat) (fields : Entries FieldSpec) (label : Option String) :
    Except DeclarationError RecordType :=
  (resolveFields fields).map fun schema ↦
    ⟨id, label, schema, none, (Entries.keys schema).map fun key ↦ (key, .field key)⟩

/-- A type below `base` with a schema and properties of its own. -/
def derived (id : Nat) (base : RecordType) (schema : Entries FieldType) (label : Option String)
    (properties : Entries Property) : RecordType :=
  ⟨id, label, schema, some base, properties⟩

/-- A type below `base` with the same schema under another label. -/
def relabelled (id : Nat) (base : RecordType) (label : String) : RecordType :=
  derived id base base.schema (some label) []

/-- A type below `base` with further fields. A field that `base` has already is redeclared in place,
the others follow. -/
def extend (id : Nat) (base : RecordType) (fields : Entries FieldSpec) (label : Option String) :
    Except DeclarationError RecordType :=
  if fields.isEmpty then .error .noFields
  else
    (resolveFields fields).map fun added ↦
      derived id base (Entries.putAll base.schema added) label
        ((Entries.keys added).map fun key ↦ (key, .draftOnly key))

/-- An extension of the record type that a spec stands for. -/
def extendSpec (id : Nat) (base : FieldSpec) (fields : Entries FieldSpec) (label : Option String) :
    Except DeclarationError RecordType :=
  match base.recordType? with
  | none => .error .baseNotRecord
  | some T => T.extend id fields label

end RecordType

end Schemata
