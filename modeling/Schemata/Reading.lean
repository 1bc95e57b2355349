import Schemata.Error
import Schemata.FieldType.Basic
import Schemata.RecordType.Ancestry
import Schemata.Value.Equality

/-!
# Reading values and building records

A field type *reads* a value: it accepts it, perhaps in another form, or says why not. A record type
*builds* a record from a value with keys by reading, for each field of its schema in order, what the
value has under the field's key; the first field that fails decides the error, and keys outside the
schema play no part. The two are one recursion, because a record field builds and a build reads.

An instance of a record type is never built again where that type is expected: it is kept as it is,
with its storage (`RecordType.convert`). So a read gives back either a part of what went into it, a
default, or a fresh record.

## Absent values

A field of a record takes its type's default for undefined before reading (`FieldType.readField`).
Optionals and enumerations do so once more themselves, since they can be read on their own.
-/

namespace Schemata

mutual

/-- What a field type makes of a value. -/
def FieldType.read : FieldType → Value → Except ReadError Value
  | .any, v => .ok v
  | .bool _, v =>
    match v with
    | .bool _ => .ok v
    | _ => .error (.notKind v.display "boolean")
  | .num _, v =>
    match v with
    | .num _ => .ok v
    | _ => .error (.notKind v.display "number")
  | .str _, v =>
    match v with
    | .str _ => .ok v
    | _ => .error (.notKind v.display "string")
  | .record T _, v =>
    match v with
    | .map _ | .record _ => (T.convert v).mapError .notBuilt
    | _ => .error (.notInstance v.display T.name)
  | .optional inner d, v =>
    let v := if v.isUndefined then d else v
    if v.isNullish then .ok v
    else (inner.read v).mapError fun _ ↦ .notOptional v.display inner.name
  | .enum members d, v =>
    let v := if v.isUndefined then d else v
    if v.isAmong members then .ok v
    else .error (.notMember v.display (members.map Value.display))
  | .union tag branches fallback, v =>
    if v.isObject then
      match v.get? tag with
      | none => .error (.noTag v.display tag)
      | some t =>
        match convertBranch branches t.display v with
        | some result => result.mapError .notBuilt
        | none =>
          match convertFallback fallback v with
          | some result => result.mapError .notBuilt
          | none => .error (.unknownTag t.display (Entries.keys branches))
    else .error (.notObject v.display)
termination_by structural F => F

/-- The value itself if it is an instance of the record type, otherwise a record built from it. -/
def RecordType.convert : RecordType → Value → Except RecordError Value
  | T@⟨_, _, schema, _, _⟩, v =>
    if v.isInstanceOf T then .ok v
    else (readFields schema v).map fun fields ↦ .record ⟨T, none, fields, false⟩
termination_by structural T => T

/-- The fields of a schema, each read from what the value has under its key. -/
def readFields : List (String × FieldType) → Value → Except RecordError (List (String × Value))
  | [], _ => .ok []
  | (key, F) :: rest, v =>
    match F.read (F.orDefault (v.getD key)) with
    | .error cause => .error (.invalidField key cause)
    | .ok x => (readFields rest v).map ((key, x) :: ·)
termination_by structural schema => schema

/-- The value as an instance of the branch for a text, if there is one. -/
def convertBranch :
    List (String × RecordType) → String → Value → Option (Except RecordError Value)
  | [], _, _ => none
  | (key, T) :: rest, text, v =>
    if key = text then some (T.convert v) else convertBranch rest text v
termination_by structural branches => branches

/-- The value as an instance of the fallback type, if there is one. -/
def convertFallback : Option RecordType → Value → Option (Except RecordError Value)
  | none, _ => none
  | some T, v => some (T.convert v)
termination_by structural fallback => fallback

end

/-- What a field makes of a value: absent ones are replaced by the default, then the type reads. -/
def FieldType.readField (F : FieldType) (key : String) (v : Value) : Except RecordError Value :=
  (F.read (F.orDefault v)).mapError (.invalidField key)

namespace RecordType

/-- A fresh record with the fields read from `v`. -/
def build (T : RecordType) (v : Value) : Except RecordError Record :=
  (readFields T.schema v).map fun fields ↦ ⟨T, none, fields, false⟩

/-- A fresh record made from a map or from another record, or, from undefined or null, of defaults
alone. -/
def construct (T : RecordType) (v : Value) : Except RecordError Record :=
  match v with
  | .undefined | .null | .map _ | .record _ => T.build v
  | _ => .error (.notASource v.display T.name)

/-- The record type that a union selects by the text of the tag. -/
def select? (branches : Entries RecordType) (fallback : Option RecordType) (text : String) :
    Option RecordType :=
  (Entries.get? branches text).or fallback

end RecordType

/-! ## The recursion in terms of its parts -/

theorem RecordType.convert_eq (T : RecordType) (v : Value) :
    T.convert v = if v.isInstanceOf T then .ok v else (T.build v).map .record := by
  obtain ⟨id, label, schema, parent, properties⟩ := T
  simp only [convert, build]
  split
  · rfl
  · cases readFields schema v <;> rfl

@[simp] theorem readFields_nil (v : Value) : readFields [] v = .ok [] := rfl

theorem readFields_cons (key : String) (F : FieldType) (rest : List (String × FieldType))
    (v : Value) :
    readFields ((key, F) :: rest) v =
      match F.readField key (v.getD key) with
      | .error e => .error e
      | .ok x => (readFields rest v).map ((key, x) :: ·) := by
  rw [readFields, FieldType.readField]
  cases F.read (F.orDefault (v.getD key)) <;> rfl

theorem convertBranch_eq (branches : List (String × RecordType)) (text : String) (v : Value) :
    convertBranch branches text v = (Entries.get? branches text).map (·.convert v) := by
  induction branches with
  | nil => rfl
  | cons branch rest ih =>
    obtain ⟨key, T⟩ := branch
    rw [convertBranch, Entries.get?_cons, ih]
    split <;> rfl

theorem convertFallback_eq (fallback : Option RecordType) (v : Value) :
    convertFallback fallback v = fallback.map (·.convert v) := by
  cases fallback <;> rfl

/-- A union reads through the record type that the text of the tag selects. -/
theorem FieldType.read_union (tag : String) (branches : List (String × RecordType))
    (fallback : Option RecordType) (v : Value) :
    (FieldType.union tag branches fallback).read v =
      if v.isObject then
        match v.get? tag with
        | none => .error (.noTag v.display tag)
        | some t =>
          match RecordType.select? branches fallback t.display with
          | some T => (T.convert v).mapError .notBuilt
          | none => .error (.unknownTag t.display (Entries.keys branches))
      else .error (.notObject v.display) := by
  rw [FieldType.read]
  split
  · cases v.get? tag with
    | none => rfl
    | some t =>
      simp only [convertBranch_eq, convertFallback_eq, RecordType.select?]
      cases Entries.get? branches t.display with
      | some T => rfl
      | none => cases fallback <;> rfl
  · rfl

/-- What is read for a schema has the keys of the schema, in its order. -/
theorem keys_of_readFields {schema : List (String × FieldType)} {v : Value}
    {fields : List (String × Value)} (h : readFields schema v = .ok fields) :
    Entries.keys fields = Entries.keys schema := by
  induction schema generalizing fields with
  | nil =>
    cases h
    rfl
  | cons field rest ih =>
    obtain ⟨key, F⟩ := field
    rw [readFields_cons] at h
    split at h
    · cases h
    · cases hr : readFields rest v with
      | error e => simp [hr, Except.map] at h
      | ok xs =>
        simp only [hr, Except.map, Except.ok.injEq] at h
        subst h
        simp [ih hr]

end Schemata
