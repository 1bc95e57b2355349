import Schemata.Proofs.Undrafted
import Schemata.Proofs.Reading
import Schemata.Record.Path
import Schemata.RecordType.Declare

/-!
# Operations do not look at drafts

Reading, building, writing and declaring put values and types together from what they are given, and
they keep instances as they are, draft or not. So the result for parts that are taken out of draft
is the result for the parts themselves, taken out of draft, and an error is the same to the letter:
its texts show everything but draft flags.

Each lemma here is this equation for one operation. Reading comes first, by induction on the field
type, since the recursion of the others goes through it (`FieldType.readsAlike`). It needs each kind
of field type as one equation (`FieldType.read_bool` and the like), successes and failures together.
-/

namespace Schemata

/-! ## Reading -/

namespace Value

variable (v : Value)

@[simp] theorem bool?_undrafted : v.undrafted.bool? = v.bool? :=
  keepsData_undrafted.bool? v

@[simp] theorem num?_undrafted : v.undrafted.num? = v.num? :=
  keepsData_undrafted.num? v

@[simp] theorem str?_undrafted : v.undrafted.str? = v.str? :=
  keepsData_undrafted.str? v

@[simp] theorem isSome_entries?_undrafted : v.undrafted.entries?.isSome = v.entries?.isSome :=
  keepsData_undrafted.isSome_entries? v

@[simp] theorem isSome_record?_undrafted : v.undrafted.record?.isSome = v.record?.isSome :=
  keepsData_undrafted.isSome_record? v

end Value

namespace FieldType

variable (F : FieldType) (v : Value)

@[simp] theorem defaultValue_undrafted : F.undrafted.defaultValue = F.defaultValue.undrafted := by
  cases F with
  | bool d | num d | str d | record T d => cases d <;> rfl
  | _ => rfl

@[simp] theorem orDefault_undrafted :
    F.undrafted.orDefault v.undrafted = (F.orDefault v).undrafted := by
  rw [orDefault, orDefault, Value.isUndefined_undrafted, defaultValue_undrafted]
  split <;> rfl

/-- The field type out of draft makes of a value out of draft what it makes of the value itself. -/
def ReadsAlike : Prop := ∀ v : Value, F.undrafted.read v.undrafted = (F.read v).map .undrafted

variable {F}

/-- A field that falls back on a default in draft falls back on the same one out of draft. -/
theorem ReadsAlike.readField (h : F.ReadsAlike) (key : String) :
    F.undrafted.readField key v.undrafted = (F.readField key v).map .undrafted := by
  rw [FieldType.readField, orDefault_undrafted, h, FieldType.readField, map_mapError]

end FieldType

/-- The first field that fails is the same one, with the same error. -/
private theorem readFields_undrafted_of_forall {schema : List (String × FieldType)}
    (h : ∀ f ∈ schema, f.2.ReadsAlike) (v : Value) :
    readFields (undraftedSchema schema) v.undrafted =
      (readFields schema v).map undraftedEntries := by
  induction schema with
  | nil => rfl
  | cons f rest ih =>
    obtain ⟨key, F⟩ := f
    obtain ⟨hF, hrest⟩ := List.forall_mem_cons.mp h
    rw [undraftedSchema, readFields_cons, readFields_cons, Value.getD_undrafted, hF.readField,
      ih hrest]
    cases F.readField key (v.getD key) with
    | error e => rfl
    | ok x => cases readFields rest v <;> rfl

namespace RecordType

variable {T : RecordType}

private theorem build_undrafted_of_forall (h : ∀ f ∈ T.schema, f.2.ReadsAlike) (v : Value) :
    T.undrafted.build v.undrafted = (T.build v).map .undrafted := by
  rw [build, schema_undrafted, ← undraftedSchema_eq_map, readFields_undrafted_of_forall h, build,
    map_map, map_map]
  rfl

private theorem convert_undrafted_of_forall (h : ∀ f ∈ T.schema, f.2.ReadsAlike) (v : Value) :
    T.undrafted.convert v.undrafted = (T.convert v).map .undrafted := by
  rw [convert_eq, convert_eq, Value.isInstanceOf_undrafted, build_undrafted_of_forall h]
  split
  · rfl
  · rw [map_map, map_map]
    rfl

end RecordType

/-- **Reading disregards drafts.** -/
theorem FieldType.readsAlike (F : FieldType) : F.ReadsAlike := by
  intro v
  induction F using FieldType.induction generalizing v with
  | any => rfl
  | bool d =>
    rw [undrafted, read_bool, read_bool, Value.bool?_undrafted, Value.display_undrafted]
    split <;> rfl
  | num d =>
    rw [undrafted, read_num, read_num, Value.num?_undrafted, Value.display_undrafted]
    split <;> rfl
  | str d =>
    rw [undrafted, read_str, read_str, Value.str?_undrafted, Value.display_undrafted]
    split <;> rfl
  | record T d ih =>
    rw [undrafted, read_record, read_record, Value.isSome_entries?_undrafted,
      Value.isSome_record?_undrafted, RecordType.convert_undrafted_of_forall ih,
      Value.display_undrafted, RecordType.name_undrafted]
    split
    · rw [map_mapError]
    · rfl
  | optional inner d ih =>
    have hx := (optional inner d).orDefault_undrafted v
    rw [undrafted] at hx ⊢
    rw [read_optional, read_optional, hx, Value.isNullish_undrafted, Value.display_undrafted,
      name_undrafted, ih]
    split
    · rfl
    · rw [map_mapError]
  | enum members d =>
    have hx := (enum members d).orDefault_undrafted v
    rw [undrafted] at hx ⊢
    rw [read_enum, read_enum, hx, Value.isAmong_undrafted, Value.display_undrafted,
      Value.map_display_undraftedItems]
    split <;> rfl
  | union tag branches fallback ih =>
    rw [undrafted, read_union, read_union, Value.isObject_undrafted, Value.get?_undrafted,
      Value.display_undrafted]
    split
    · cases v.get? tag with
      | none => rfl
      | some t =>
        simp only [Option.map_some, Value.display_undrafted, RecordType.select?_undrafted]
        cases hT : RecordType.select? branches fallback t.display with
        | none =>
          rw [undraftedBranches_eq_map, Option.map_none]
          simp only [Entries.keys_map]
          rfl
        | some T =>
          have hconvert := RecordType.convert_undrafted_of_forall
            (ih T (RecordType.mem_candidates_of_select? hT)) v
          simp only [Option.map_some, hconvert, map_mapError]
    · rfl

/-! ## Building and writing -/

namespace RecordType

variable (T : RecordType) (v : Value)

theorem build_undrafted : T.undrafted.build v.undrafted = (T.build v).map .undrafted :=
  build_undrafted_of_forall (fun f _ ↦ f.2.readsAlike) v

/-- Building a record does not look at drafts. -/
theorem construct_undrafted :
    T.undrafted.construct v.undrafted = (T.construct v).map .undrafted := by
  rw [construct_eq, construct_eq, Value.isNullish_undrafted, Value.isSome_entries?_undrafted,
    Value.isSome_record?_undrafted, build_undrafted, Value.display_undrafted, name_undrafted]
  split <;> rfl

end RecordType

namespace Record

variable (r : Record) (key : String) (v : Value)

/-- Storing a value under a key in fresh storage. -/
private theorem put_undrafted :
    ({ r with fields := Entries.put r.fields key v, storage := none } : Record).undrafted =
      { r.undrafted with
        fields := Entries.put r.undrafted.fields key v.undrafted, storage := none } := by
  rw [fields_undrafted, ← Entries.map_put, ← undraftedEntries_eq_map]
  obtain ⟨T, i, fields, draft⟩ := r
  rfl

/-- Setting a field in a copy does not look at drafts. -/
theorem set_undrafted : r.undrafted.set key v.undrafted = (r.set key v).map .undrafted := by
  rw [set_eq, set_eq, type_undrafted, RecordType.field?_undrafted, RecordType.name_undrafted]
  cases r.type.field? key with
  | none => rfl
  | some F =>
    rw [Option.map_some]
    simp only [F.readsAlike.readField, map_map, put_undrafted, type_undrafted]

theorem reset_undrafted : r.undrafted.reset key = (r.reset key).map .undrafted :=
  r.set_undrafted key .undefined

/-- One level of a nested write, if what is made of the field does not look at drafts. -/
theorem update_undrafted {change change' : Value → Except RecordError Value}
    (h : ∀ x : Value, change' x.undrafted = (change x).map .undrafted) :
    r.undrafted.update key change' = (r.update key change).map .undrafted := by
  have hgetD : r.undrafted.getD key = (r.getD key).undrafted :=
    (Value.record r).getD_undrafted key
  rw [update, update, type_undrafted, RecordType.field?_undrafted, RecordType.name_undrafted, hgetD,
    h]
  cases r.type.field? key with
  | none => rfl
  | some F =>
    cases change (r.getD key) with
    | error e => rfl
    | ok x => exact r.set_undrafted key x

theorem property?_undrafted (name : String) :
    r.undrafted.property? name = (r.property? name).map .undrafted := by
  have hgetD (key : String) : r.undrafted.getD key = (r.getD key).undrafted :=
    (Value.record r).getD_undrafted key
  rw [property?, property?, type_undrafted, RecordType.property?_undrafted, Option.map_map]
  refine congrArg (Option.map · _) (funext fun p ↦ ?_)
  rw [Function.comp_apply, Property.read, Property.read, hgetD]

end Record

/-! ## Paths -/

theorem Value.getIn?_undrafted (v : Value) (path : List String) :
    v.undrafted.getIn? path = (v.getIn? path).map .undrafted := by
  induction path generalizing v with
  | nil => rfl
  | cons key rest ih =>
    rw [getIn?, getIn?, get?_undrafted]
    cases v.get? key with
    | none => rfl
    | some x => exact ih x

theorem Record.getIn?_undrafted (r : Record) (path : List String) :
    r.undrafted.getIn? path = (r.getIn? path).map .undrafted := by
  cases path with
  | nil => rfl
  | cons key rest => exact (Value.record r).getIn?_undrafted (key :: rest)

/-- **Nested writes do not look at drafts**, down to the path that an error reports. -/
theorem Value.setIn_undrafted (whole path : List String) (x v : Value) :
    x.undrafted.setIn whole path v.undrafted = (x.setIn whole path v).map .undrafted := by
  induction path generalizing whole x with
  | nil => rfl
  | cons key rest ih =>
    cases x with
    | record r =>
      rw [undrafted, setIn, setIn, r.update_undrafted key fun x ↦ ih (key :: rest) x, map_map,
        map_map]
      rfl
    | map entries =>
      have hchild : (Entries.get? (undraftedEntries entries) key).getD .undefined =
          ((Entries.get? entries key).getD .undefined).undrafted :=
        (Value.map entries).getD_undrafted key
      rw [undrafted, setIn, setIn, hchild, ih, map_map, map_map]
      simp only [undrafted, undraftedEntries_eq_map, Entries.map_put]
    | undefined | null =>
      have hchild : setIn whole .undefined rest v.undrafted = _ := ih whole .undefined
      refine (congrArg (Except.map fun x ↦ Value.map [(key, x)]) hchild).trans ?_
      rw [setIn, map_map, map_map]
      rfl
    | _ =>
      exact congrArg (fun shown ↦ Except.error (RecordError.notAContainer whole shown))
        (display_undrafted _)

theorem Record.setIn_undrafted (r : Record) (path : List String) (v : Value) :
    r.undrafted.setIn path v.undrafted = (r.setIn path v).map .undrafted := by
  cases path with
  | nil => rfl
  | cons key rest =>
    rw [setIn, setIn]
    exact r.update_undrafted key fun x ↦ Value.setIn_undrafted (key :: rest) rest x v

/-! ## Numbers for fresh storages -/

private theorem settleEntries_undrafted_of_forall {entries : List (String × Value)}
    (h : ∀ e ∈ entries, ∀ n, e.2.undrafted.settle n =
      ((e.2.settle n).1.undrafted, (e.2.settle n).2)) (next : Nat) :
    settleEntries (undraftedEntries entries) next =
      (undraftedEntries (settleEntries entries next).1, (settleEntries entries next).2) := by
  induction entries generalizing next with
  | nil => rfl
  | cons e rest ih =>
    obtain ⟨key, v⟩ := e
    obtain ⟨hv, hrest⟩ := List.forall_mem_cons.mp h
    rw [undraftedEntries, settleEntries_cons, settleEntries_cons, hv, ih hrest, undraftedEntries]

private theorem settleItems_undrafted_of_forall {items : List Value}
    (h : ∀ v ∈ items, ∀ n, v.undrafted.settle n = ((v.settle n).1.undrafted, (v.settle n).2))
    (next : Nat) :
    settleItems (undraftedItems items) next =
      (undraftedItems (settleItems items next).1, (settleItems items next).2) := by
  induction items generalizing next with
  | nil => rfl
  | cons v rest ih =>
    obtain ⟨hv, hrest⟩ := List.forall_mem_cons.mp h
    rw [undraftedItems, settleItems_cons, settleItems_cons, hv, ih hrest, undraftedItems]

/-- Which numbers are given out, and to which records, does not depend on drafts. -/
theorem Value.settle_undrafted (v : Value) (next : Nat) :
    v.undrafted.settle next = ((v.settle next).1.undrafted, (v.settle next).2) := by
  induction v using Value.induction generalizing next with
  | flat v h => rw [undrafted_of_not_object h, settle_of_not_object h, undrafted_of_not_object h]
  | list items ih =>
    rw [undrafted, settle_list, settle_list, settleItems_undrafted_of_forall ih, undrafted]
  | map entries ih =>
    rw [undrafted, settle_map, settle_map, settleEntries_undrafted_of_forall ih, undrafted]
  | record r ih =>
    obtain ⟨T, i, fields, draft⟩ := r
    rw [undrafted, settle_record, settle_record, undrafted]
    cases i with
    | none =>
      rw [Record.settle_of_fresh (r := ⟨T, none, fields, draft⟩) rfl, Record.undrafted,
        Record.settle_of_fresh rfl, settleEntries_undrafted_of_forall ih, Record.undrafted]
    | some i => rfl

theorem Record.settle_undrafted (r : Record) (next : Nat) :
    r.undrafted.settle next = ((r.settle next).1.undrafted, (r.settle next).2) := by
  have h := (Value.record r).settle_undrafted next
  rw [Value.undrafted, Value.settle_record, Value.settle_record, Value.undrafted, Prod.mk.injEq,
    Value.record.injEq] at h
  exact Prod.ext h.1 h.2

theorem FieldType.settle_undrafted (F : FieldType) (next : Nat) :
    F.undrafted.settle next = ((F.settle next).1.undrafted, (F.settle next).2) := by
  cases F with
  | optional inner d =>
    have h := d.settle_undrafted next
    simp only [undrafted, settle, h]
  | _ => rfl

/-! ## Declarations -/

namespace FieldSpec

/-- The declaration with the records in it out of draft. -/
def undrafted : FieldSpec → FieldSpec
  | type F => type F.undrafted
  | literal v => literal v.undrafted

variable (spec : FieldSpec)

theorem resolve_undrafted : spec.undrafted.resolve = spec.resolve.map .undrafted := by
  cases spec with
  | type F => rfl
  | literal v =>
    cases v with
    | record r =>
      obtain ⟨T, i, fields, draft⟩ := r
      rfl
    | _ => rfl

theorem recordType?_undrafted : spec.undrafted.recordType? = spec.recordType?.map .undrafted := by
  rw [recordType?, resolve_undrafted, recordType?]
  cases spec.resolve with
  | none => rfl
  | some F => cases F <;> rfl

@[simp] theorem display_undrafted : spec.undrafted.display = spec.display := by
  cases spec with
  | type F => exact F.name_undrafted
  | literal v => exact v.display_undrafted

end FieldSpec

namespace FieldType

theorem isAny_undrafted (F : FieldType) : F.undrafted.isAny = F.isAny := by
  cases F <;> rfl

theorem isStr_undrafted (F : FieldType) : F.undrafted.isStr = F.isStr := by
  cases F <;> rfl

/-- A default in draft is accepted as it would be out of draft. -/
theorem optionalOf_undrafted (spec : FieldSpec) (d : Value) :
    optionalOf spec.undrafted d.undrafted = (optionalOf spec d).map .undrafted := by
  rw [optionalOf, optionalOf, FieldSpec.resolve_undrafted, FieldSpec.display_undrafted]
  cases spec.resolve with
  | none => rfl
  | some inner =>
    simp only [Option.map_some, isAny_undrafted, Value.isNullish_undrafted, readsAlike inner d,
      Value.isUndefined_undrafted, defaultValue_undrafted, Value.display_undrafted,
      name_undrafted]
    split
    · rfl
    · split
      · split <;> rfl
      · cases inner.read d with
        | error e => rfl
        | ok x =>
          simp only [Except.map, Value.isUndefined_undrafted]
          split <;> rfl

theorem enumOf_undrafted (members : List Value) (d : Value) :
    enumOf (undraftedItems members) d.undrafted = (enumOf members d).map .undrafted := by
  have hempty : (undraftedItems members).isEmpty = members.isEmpty := by
    cases members <;> rfl
  rw [enumOf, enumOf, hempty, Value.isUndefined_undrafted, Value.isAmong_undrafted,
    Value.display_undrafted, Value.map_display_undraftedItems]
  split
  · rfl
  · split <;> rfl

theorem enumOfList_undrafted (members d : Value) :
    enumOfList members.undrafted d.undrafted = (enumOfList members d).map .undrafted := by
  cases members with
  | list items => exact enumOf_undrafted items d
  | _ =>
    exact congrArg (fun shown ↦ Except.error (DeclarationError.membersNotList shown))
      (Value.display_undrafted _)

theorem branchType_undrafted (tag branch : String) (spec : FieldSpec) :
    branchType tag branch spec.undrafted = (branchType tag branch spec).map .undrafted := by
  rw [branchType, branchType, FieldSpec.recordType?_undrafted]
  cases spec.recordType? with
  | none => rfl
  | some T =>
    simp only [Option.map_some, RecordType.field?_undrafted]
    cases T.field? tag with
    | none => rfl
    | some F =>
      simp only [Option.map_some, isStr_undrafted]
      split <;> rfl

theorem branchTypes_undrafted (tag : String) (specs : List (String × FieldSpec)) :
    branchTypes tag (specs.map fun e ↦ (e.1, e.2.undrafted)) =
      (branchTypes tag specs).map undraftedBranches := by
  induction specs with
  | nil => rfl
  | cons e rest ih =>
    obtain ⟨branch, spec⟩ := e
    rw [List.map_cons, branchTypes, branchTypes, branchType_undrafted, ih]
    cases branchType tag branch spec with
    | error e => rfl
    | ok T => cases branchTypes tag rest <;> rfl

theorem fallbackType_undrafted (tag : String) (spec : Option FieldSpec) :
    fallbackType tag (spec.map .undrafted) = (fallbackType tag spec).map undraftedType? := by
  cases spec with
  | none => rfl
  | some spec =>
    rw [Option.map_some, fallbackType, fallbackType, branchType_undrafted, map_map, map_map]
    rfl

/-- The checks of a union fail in the same order. -/
theorem unionOf_undrafted (tag : String) (specs : List (String × FieldSpec))
    (fallback : Option FieldSpec) :
    unionOf tag (specs.map fun e ↦ (e.1, e.2.undrafted)) (fallback.map .undrafted) =
      (unionOf tag specs fallback).map .undrafted := by
  rw [unionOf, unionOf, branchTypes_undrafted, fallbackType_undrafted]
  split
  · rfl
  · cases branchTypes tag specs with
    | error e => rfl
    | ok types =>
      have hempty : (undraftedBranches types).isEmpty = types.isEmpty := by
        cases types <;> rfl
      simp only [Except.map, hempty]
      split
      · rfl
      · cases fallbackType tag fallback with
        | error e => rfl
        | ok T =>
          simp only [undrafted, undraftedBranches_eq_map, Entries.map_ofList]

end FieldType

/-- A declaration fails at the same field. -/
theorem resolveFields_undrafted (fields : List (String × FieldSpec)) :
    resolveFields (fields.map fun e ↦ (e.1, e.2.undrafted)) =
      (resolveFields fields).map undraftedSchema := by
  induction fields with
  | nil => rfl
  | cons e rest ih =>
    obtain ⟨key, spec⟩ := e
    rw [List.map_cons, resolveFields, resolveFields, FieldSpec.resolve_undrafted, ih]
    cases spec.resolve with
    | none => rfl
    | some F => cases resolveFields rest <;> rfl

namespace RecordType

theorem declare_undrafted (id : Nat) (fields : List (String × FieldSpec)) (label : Option String) :
    declare id (fields.map fun e ↦ (e.1, e.2.undrafted)) label =
      (declare id fields label).map .undrafted := by
  rw [declare, declare, resolveFields_undrafted, map_map, map_map]
  simp only [undrafted, undraftedSchema_eq_map, Entries.keys_map, undraftedType?]

theorem derived_undrafted (id : Nat) (base : RecordType) (schema : Entries FieldType)
    (label : Option String) (properties : Entries Property) :
    derived id base.undrafted (undraftedSchema schema) label properties =
      (derived id base schema label properties).undrafted := rfl

theorem relabelled_undrafted (id : Nat) (base : RecordType) (label : String) :
    relabelled id base.undrafted label = (relabelled id base label).undrafted := by
  rw [relabelled, schema_undrafted, ← undraftedSchema_eq_map, derived_undrafted, relabelled]

theorem extend_undrafted (id : Nat) (base : RecordType) (fields : List (String × FieldSpec))
    (label : Option String) :
    extend id base.undrafted (fields.map fun e ↦ (e.1, e.2.undrafted)) label =
      (extend id base fields label).map .undrafted := by
  rw [extend, extend, List.isEmpty_map]
  split
  · rfl
  · rw [resolveFields_undrafted, map_map, map_map]
    simp only [← derived_undrafted, undraftedSchema_eq_map, Entries.keys_map, Entries.map_putAll,
      schema_undrafted]

theorem extendSpec_undrafted (id : Nat) (base : FieldSpec) (fields : List (String × FieldSpec))
    (label : Option String) :
    extendSpec id base.undrafted (fields.map fun e ↦ (e.1, e.2.undrafted)) label =
      (extendSpec id base fields label).map .undrafted := by
  rw [extendSpec, extendSpec, FieldSpec.recordType?_undrafted]
  cases base.recordType? with
  | none => rfl
  | some T => exact T.extend_undrafted id fields label

end RecordType

end Schemata
