import Schemata.Proofs.Contents

/-!
# Values and types out of draft

The draft flag of a record says who may write to it in place. Nothing else should depend on it. To
say this, two values (or records, or types) that differ in draft flags only are compared by what is
left when every record in them is taken out of draft: records can be nested in lists, maps and
fields, and they hang on to types as defaults and as members of enumerations, so `undrafted` goes
through all four kinds of parts.

Whatever looks at a value or at a type and is not about drafts gives the same for both: keyed access
up to `undrafted` itself, texts, JSON forms, names, equality, sameness and ancestry outright.
-/

namespace Schemata

mutual

/-- The value with every record in it out of draft. -/
def Value.undrafted : Value → Value
  | .undefined => .undefined
  | .null => .null
  | .bool b => .bool b
  | .num n => .num n
  | .str s => .str s
  | .list items => .list (undraftedItems items)
  | .map entries => .map (undraftedEntries entries)
  | .record r => .record r.undrafted
termination_by structural v => v

/-- The record with itself and every record in it out of draft. -/
def Record.undrafted : Record → Record
  | ⟨T, i, fields, _⟩ => ⟨T.undrafted, i, undraftedEntries fields, false⟩
termination_by structural r => r

/-- The record type with the records in its defaults and members out of draft. -/
def RecordType.undrafted : RecordType → RecordType
  | ⟨id, label, schema, parent, properties⟩ =>
    ⟨id, label, undraftedSchema schema, undraftedType? parent, properties⟩
termination_by structural T => T

/-- The field type with the records in its default and its members out of draft. -/
def FieldType.undrafted : FieldType → FieldType
  | .any => .any
  | .bool d => .bool d
  | .num d => .num d
  | .str d => .str d
  | .record T d => .record T.undrafted (undraftedRecord? d)
  | .optional inner d => .optional inner.undrafted d.undrafted
  | .enum members d => .enum (undraftedItems members) d.undrafted
  | .union tag branches fallback =>
    .union tag (undraftedBranches branches) (undraftedType? fallback)
termination_by structural F => F

/-- The items of a list out of draft. -/
def undraftedItems : List Value → List Value
  | [] => []
  | v :: rest => v.undrafted :: undraftedItems rest
termination_by structural vs => vs

/-- The entries of a map or the fields of a record out of draft. -/
def undraftedEntries : List (String × Value) → List (String × Value)
  | [] => []
  | (key, v) :: rest => (key, v.undrafted) :: undraftedEntries rest
termination_by structural es => es

/-- The field types of a schema out of draft. -/
def undraftedSchema : List (String × FieldType) → List (String × FieldType)
  | [] => []
  | (key, F) :: rest => (key, F.undrafted) :: undraftedSchema rest
termination_by structural schema => schema

/-- The branches of a union out of draft. -/
def undraftedBranches : List (String × RecordType) → List (String × RecordType)
  | [] => []
  | (text, T) :: rest => (text, T.undrafted) :: undraftedBranches rest
termination_by structural branches => branches

/-- A parent or fallback type out of draft. -/
def undraftedType? : Option RecordType → Option RecordType
  | none => none
  | some T => some T.undrafted
termination_by structural T => T

/-- A default out of draft. -/
def undraftedRecord? : Option Record → Option Record
  | none => none
  | some r => some r.undrafted
termination_by structural r => r

end

/-! ## Parts -/

theorem undraftedItems_eq_map (items : List Value) :
    undraftedItems items = items.map .undrafted := by
  induction items with
  | nil => rfl
  | cons v rest ih => rw [undraftedItems, ih, List.map_cons]

theorem undraftedEntries_eq_map (entries : List (String × Value)) :
    undraftedEntries entries = entries.map fun e ↦ (e.1, e.2.undrafted) := by
  induction entries with
  | nil => rfl
  | cons e rest ih => rw [undraftedEntries, ih, List.map_cons]

theorem undraftedSchema_eq_map (schema : List (String × FieldType)) :
    undraftedSchema schema = schema.map fun f ↦ (f.1, f.2.undrafted) := by
  induction schema with
  | nil => rfl
  | cons f rest ih => rw [undraftedSchema, ih, List.map_cons]

theorem undraftedBranches_eq_map (branches : List (String × RecordType)) :
    undraftedBranches branches = branches.map fun b ↦ (b.1, b.2.undrafted) := by
  induction branches with
  | nil => rfl
  | cons b rest ih => rw [undraftedBranches, ih, List.map_cons]

theorem undraftedType?_eq_map (T : Option RecordType) :
    undraftedType? T = T.map .undrafted := by
  cases T <;> rfl

namespace RecordType

variable (T : RecordType)

@[simp] theorem id_undrafted : T.undrafted.id = T.id := by
  obtain ⟨id, label, schema, parent, properties⟩ := T
  rfl

@[simp] theorem label_undrafted : T.undrafted.label = T.label := by
  obtain ⟨id, label, schema, parent, properties⟩ := T
  rfl

@[simp] theorem schema_undrafted :
    T.undrafted.schema = T.schema.map fun f ↦ (f.1, f.2.undrafted) := by
  obtain ⟨id, label, schema, parent, properties⟩ := T
  exact undraftedSchema_eq_map schema

@[simp] theorem properties_undrafted : T.undrafted.properties = T.properties := by
  obtain ⟨id, label, schema, parent, properties⟩ := T
  rfl

/-- A type out of draft declares the same keys, with types that have nothing in draft. -/
theorem field?_undrafted (key : String) :
    T.undrafted.field? key = (T.field? key).map .undrafted := by
  rw [field?, schema_undrafted, Entries.get?_map, field?]

@[simp] theorem identical_undrafted (S : RecordType) :
    S.undrafted.identical T.undrafted = S.identical T := by
  rw [identical, identical, id_undrafted, id_undrafted]

/-- The line of ancestors stays as it is, each out of draft. -/
theorem ancestors_undrafted : T.undrafted.ancestors = T.ancestors.map .undrafted := by
  induction T using ancestors.induct with
  | case1 id label schema properties => rfl
  | case2 id label schema P properties ih =>
    have hparent : (undrafted ⟨id, label, schema, some P, properties⟩).parent =
        some P.undrafted := rfl
    rw [ancestors_of_parent_some hparent, ih, ancestors, List.map_cons]

@[simp] theorem isSubtypeOf_undrafted (S : RecordType) :
    S.undrafted.isSubtypeOf T.undrafted = S.isSubtypeOf T := by
  rw [isSubtypeOf, ancestors_undrafted, List.any_map, isSubtypeOf]
  refine congrArg S.ancestors.any (funext fun A ↦ ?_)
  rw [Function.comp_apply, identical_undrafted]

@[simp] theorem property?_undrafted (name : String) :
    T.undrafted.property? name = T.property? name := by
  rw [property?, ancestors_undrafted, List.findSome?_map, property?]
  refine congrArg (List.findSome? · T.ancestors) (funext fun A ↦ ?_)
  rw [Function.comp_apply, properties_undrafted]

/-- A union selects by text alone. -/
theorem select?_undrafted (branches : Entries RecordType) (fallback : Option RecordType)
    (text : String) :
    select? (undraftedBranches branches) (undraftedType? fallback) text =
      (select? branches fallback text).map .undrafted := by
  rw [select?, undraftedBranches_eq_map, Entries.get?_map, undraftedType?_eq_map, select?]
  cases Entries.get? branches text <;> rfl

end RecordType

namespace Record

variable (r : Record)

@[simp] theorem type_undrafted : r.undrafted.type = r.type.undrafted := by
  obtain ⟨T, i, fields, draft⟩ := r
  rfl

@[simp] theorem storage_undrafted : r.undrafted.storage = r.storage := by
  obtain ⟨T, i, fields, draft⟩ := r
  rfl

@[simp] theorem fields_undrafted :
    r.undrafted.fields = r.fields.map fun e ↦ (e.1, e.2.undrafted) := by
  obtain ⟨T, i, fields, draft⟩ := r
  exact undraftedEntries_eq_map fields

@[simp] theorem draft_undrafted : r.undrafted.draft = false := by
  obtain ⟨T, i, fields, draft⟩ := r
  rfl

theorem get?_undrafted (key : String) : r.undrafted.get? key = (r.get? key).map .undrafted := by
  rw [get?, fields_undrafted, Entries.get?_map, get?]

@[simp] theorem isInstanceOf_undrafted (T : RecordType) :
    r.undrafted.isInstanceOf T.undrafted = r.isInstanceOf T := by
  rw [isInstanceOf, type_undrafted, RecordType.isSubtypeOf_undrafted, isInstanceOf]

/-- Identity knows of no drafts. -/
@[simp] theorem identical_undrafted (s : Record) :
    r.undrafted.identical s.undrafted = r.identical s := by
  simp [identical]

end Record

/-! ## Kinds of values and keyed access -/

namespace Value

variable (v : Value)

theorem undrafted_of_not_object {v : Value} (h : v.isObject = false) : v.undrafted = v := by
  cases v with
  | list | map | record => cases h
  | _ => rfl

/-- **The draft flag is not data.** Whatever looks at the data of a value finds the same out of
draft. -/
theorem keepsData_undrafted : KeepsData undrafted Record.undrafted where
  flat _ h := undrafted_of_not_object h
  list items := congrArg Value.list (undraftedItems_eq_map items)
  map entries := congrArg Value.map (undraftedEntries_eq_map entries)
  record _ := rfl
  fields r := r.fields_undrafted
  id r := by rw [Record.type_undrafted, RecordType.id_undrafted]
  label r := by rw [Record.type_undrafted, RecordType.label_undrafted]

@[simp] theorem isUndefined_undrafted : v.undrafted.isUndefined = v.isUndefined :=
  keepsData_undrafted.isUndefined v

@[simp] theorem isNullish_undrafted : v.undrafted.isNullish = v.isNullish :=
  keepsData_undrafted.isNullish v

@[simp] theorem isObject_undrafted : v.undrafted.isObject = v.isObject :=
  keepsData_undrafted.isObject v

theorem get?_undrafted (key : String) : v.undrafted.get? key = (v.get? key).map .undrafted :=
  keepsData_undrafted.get? v key

@[simp] theorem getD_undrafted (key : String) :
    v.undrafted.getD key = (v.getD key).undrafted :=
  keepsData_undrafted.getD v key

@[simp] theorem hasKey_undrafted (key : String) : v.undrafted.hasKey key = v.hasKey key := by
  cases v with
  | map entries =>
    rw [undrafted, hasKey, undraftedEntries_eq_map, Entries.contains, Entries.get?_map,
      Option.isSome_map, hasKey, Entries.contains]
  | record r =>
    rw [undrafted, hasKey, Record.type_undrafted, RecordType.field?_undrafted, Option.isSome_map,
      hasKey]
  | _ => rfl

@[simp] theorem isInstanceOf_undrafted (T : RecordType) :
    v.undrafted.isInstanceOf T.undrafted = v.isInstanceOf T := by
  cases v with
  | record r => exact r.isInstanceOf_undrafted T
  | _ => rfl

/-! ## Texts -/

@[simp] theorem toJson_undrafted : v.undrafted.toJson = v.toJson := keepsData_undrafted.toJson v

@[simp] theorem display_undrafted : v.undrafted.display = v.display := keepsData_undrafted.display v

theorem map_display_undraftedItems (items : List Value) :
    (undraftedItems items).map display = items.map display := by
  rw [undraftedItems_eq_map, List.map_map]
  exact List.map_congr_left fun v _ ↦ v.display_undrafted

end Value

private theorem schemaTexts_undrafted {schema : List (String × FieldType)}
    (h : ∀ f ∈ schema, f.2.undrafted.name = f.2.name) :
    schemaTexts (undraftedSchema schema) = schemaTexts schema := by
  induction schema with
  | nil => rfl
  | cons f rest ih =>
    obtain ⟨key, F⟩ := f
    obtain ⟨hF, hrest⟩ := List.forall_mem_cons.mp h
    rw [undraftedSchema, schemaTexts, schemaTexts, ih hrest, hF]

private theorem RecordType.name_undrafted_of_forall {T : RecordType}
    (h : ∀ f ∈ T.schema, f.2.undrafted.name = f.2.name) : T.undrafted.name = T.name := by
  obtain ⟨id, label, schema, parent, properties⟩ := T
  cases label with
  | none => rw [undrafted, name, name, schemaTexts_undrafted h]
  | some label => rfl

/-- **Names** of types do not show drafts, although a default may be one. -/
@[simp] theorem FieldType.name_undrafted (F : FieldType) : F.undrafted.name = F.name := by
  induction F using FieldType.induction with
  | any | bool | num | str | union => rfl
  | record T d ih => exact RecordType.name_undrafted_of_forall ih
  | optional inner d ih => exact congrArg (fun text ↦ "Maybe(" ++ text ++ ")") ih
  | enum members d =>
    exact congrArg (fun texts ↦ "Enum(" ++ ", ".intercalate texts ++ ")")
      (Value.map_display_undraftedItems members)

@[simp] theorem RecordType.name_undrafted (T : RecordType) : T.undrafted.name = T.name :=
  name_undrafted_of_forall fun f _ ↦ f.2.name_undrafted

/-! ## Equality -/

namespace Value

theorem equal_undrafted (v w : Value) : v.undrafted.equal w.undrafted = v.equal w :=
  keepsData_undrafted.equal keepsData_undrafted v w

/-- Membership in an enumeration compares records by identity, so that a draft of a member is a
member. -/
theorem same_undrafted (v w : Value) : v.undrafted.same w.undrafted = v.same w := by
  cases v with
  | num a => cases w <;> rfl
  | record r =>
    cases w with
    | record s => exact r.identical_undrafted s
    | _ => exact equal_undrafted (.record r) _
  | _ => exact equal_undrafted _ w

theorem isAmong_undrafted (v : Value) (members : List Value) :
    v.undrafted.isAmong (undraftedItems members) = v.isAmong members := by
  rw [isAmong, undraftedItems_eq_map, List.any_map, isAmong]
  refine congrArg members.any (funext fun m ↦ ?_)
  rw [Function.comp_apply, same_undrafted]

end Value

end Schemata
