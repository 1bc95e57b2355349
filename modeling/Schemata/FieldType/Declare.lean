import Schemata.Reading

/-!
# Declaring field types

A field is declared by a *spec*: a field type, or a literal, which stands for the type of the
literal's kind with the literal as its default. Undefined and null name no type; a list or a plain
map stands for every value.

Optionals, enumerations and unions are made from specs and values here, and only well-formed ones
are: `FieldType.optionalOf` keeps a default that its inner type accepts, `FieldType.enumOf` one that
is a member, and `FieldType.unionOf` only branches whose type declares the tag as a string.
-/

namespace Schemata

/-- The declaration of a field. -/
inductive FieldSpec where
  | type (F : FieldType)
  | literal (v : Value)

namespace FieldSpec

/-- The field type that a spec stands for. -/
def resolve : FieldSpec → Option FieldType
  | type F => some F
  | literal .undefined | literal .null => none
  | literal (.bool b) => some (.bool (some b))
  | literal (.num n) => some (.num (some n))
  | literal (.str s) => some (.str (some s))
  | literal (.record r) => some (.record r.type (some r))
  | literal (.list _) | literal (.map _) => some .any

/-- The record type that a spec stands for. -/
def recordType? (spec : FieldSpec) : Option RecordType := spec.resolve.bind FieldType.recordType?

/-- The text of a spec: the name of the type or the text of the literal. -/
def display : FieldSpec → String
  | type F => F.name
  | literal v => v.display

end FieldSpec

namespace FieldType

/-- The field type of an explicit declaration by a record type. -/
def ofRecordType (T : RecordType) : FieldType := .record T none

/-! ## Optionals -/

/-- The optional of the type that `spec` stands for. A default that is not nullish is kept in the
form that the inner type gives it; without one, the inner type's own default serves. -/
def optionalOf (spec : FieldSpec) (default : Value) : Except DeclarationError FieldType :=
  match spec.resolve with
  | none => .error (.notOptionalType spec.display)
  | some inner =>
    if inner.isAny then .error (.notOptionalType spec.display)
    else if default.isNullish then
      .ok (.optional inner (if default.isUndefined then inner.defaultValue else default))
    else
      match inner.read default with
      | .error _ => .error (.notOptionalDefault default.display inner.name)
      | .ok d => .ok (.optional inner (if d.isUndefined then inner.defaultValue else d))

/-! ## Enumerations -/

/-- The enumeration of `members`. An undefined default stands for none. -/
def enumOf (members : List Value) (default : Value) : Except DeclarationError FieldType :=
  if members.isEmpty then .error .noMembers
  else if !default.isUndefined && !default.isAmong members then
    .error (.notMemberDefault default.display (members.map Value.display))
  else .ok (.enum members default)

/-- The enumeration of the items of a list. -/
def enumOfList (members default : Value) : Except DeclarationError FieldType :=
  match members with
  | .list items => enumOf items default
  | v => .error (.membersNotList v.display)

/-! ## Unions -/

/-- The record type of a branch, which must declare the tag as a string. -/
def branchType (tag branch : String) (spec : FieldSpec) : Except DeclarationError RecordType :=
  match spec.recordType? with
  | none => .error (.branchNotRecord branch)
  | some T =>
    match T.field? tag with
    | none => .error (.branchWithoutTag branch tag)
    | some F => if F.isStr then .ok T else .error (.branchTagNotString branch tag)

/-- The record types of the branches, in order. -/
def branchTypes (tag : String) :
    List (String × FieldSpec) → Except DeclarationError (List (String × RecordType))
  | [] => .ok []
  | (branch, spec) :: rest =>
    match branchType tag branch spec with
    | .error e => .error e
    | .ok T => (branchTypes tag rest).map ((branch, T) :: ·)

/-- The fallback type, if there is one, which messages call `default`. -/
def fallbackType (tag : String) : Option FieldSpec → Except DeclarationError (Option RecordType)
  | none => .ok none
  | some spec => (branchType tag "default" spec).map some

/-- The union that the text under the key `tag` selects from. Every entry of `branches` is checked,
and of a repeated text the last entry counts. -/
def unionOf (tag : String) (branches : List (String × FieldSpec)) (fallback : Option FieldSpec) :
    Except DeclarationError FieldType :=
  if tag.isEmpty then .error .emptyTag
  else
    match branchTypes tag branches with
    | .error e => .error e
    | .ok types =>
      if types.isEmpty then .error .noBranches
      else (fallbackType tag fallback).map (.union tag (Entries.ofList types))

end FieldType

end Schemata
