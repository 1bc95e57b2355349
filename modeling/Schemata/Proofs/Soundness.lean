import Schemata.Proofs.Invariants

/-!
# Sound parts

A part is *sound* if everything that occurs in it is in order: records are well typed, maps and
schemas hold no key twice, and record types are known. What being known means is left open, as a
predicate. It is how a session tells its own record types, and so their identities, from any others.

Soundness is a storageless invariant, so every operation preserves it. So is the other property of
this file, that each union knows the tag of the types it selects (`Part.TagDeclared`).
-/

namespace Schemata

variable {known : RecordType → Prop}

namespace Part

/-- What is asked of one part, whatever occurs in it. -/
def Regular (known : RecordType → Prop) : Part → Prop
  | value (.map entries) => (Entries.keys entries).Nodup
  | record r => r.WellTyped
  | recordType T => known T ∧ (Entries.keys T.schema).Nodup
  | _ => True

/-- Everything that occurs in the part is in order. -/
def Sound (known : RecordType → Prop) (p : Part) : Prop := p.Throughout (Regular known)

/-- A part stays sound when more record types become known. -/
theorem Sound.imp {known' : RecordType → Prop} {p : Part} (h : p.Sound known)
    (himp : ∀ T, known T → known' T) : p.Sound known' := by
  refine Throughout.imp h fun q hq ↦ ?_
  cases q with
  | recordType T => exact ⟨himp T hq.1, hq.2⟩
  | value v =>
    cases v with
    | map entries => exact hq
    | _ => trivial
  | record r => exact hq
  | fieldType F => trivial

instance : Storageless (Regular known) where
  flat {v} h := by
    cases v with
    | list | map | record => cases h
    | _ => trivial
  list _ := trivial
  map h := h
  record _ := trivial
  fieldType _ := trivial
  put h key v := Entries.nodup_keys_put h key v
  build h := Record.WellTyped.of_build h
  set hr h := Record.WellTyped.set hr h
  toDraft h := Record.WellTyped.toDraft h
  commit h := Record.WellTyped.commit h
  settleEntries h next := by rwa [Regular, keys_settleEntries]
  settle h next := Record.WellTyped.settle h next

theorem sound_list {items : List Value} :
    (value (.list items)).Sound known ↔ ∀ v ∈ items, (value v).Sound known := by
  simp only [Sound, throughout_list, Regular, true_and]

theorem sound_map {entries : List (String × Value)} :
    (value (.map entries)).Sound known ↔
      (Entries.keys entries).Nodup ∧ ∀ e ∈ entries, (value e.2).Sound known :=
  throughout_map

theorem sound_value_record {r : Record} :
    (value (.record r)).Sound known ↔ (record r).Sound known := by
  simp only [Sound, throughout_value_record, Regular, true_and]

theorem sound_record {r : Record} :
    (record r).Sound known ↔ r.WellTyped ∧ (recordType r.type).Sound known ∧
      ∀ e ∈ r.fields, (value e.2).Sound known :=
  throughout_record

theorem sound_recordType {T : RecordType} :
    (recordType T).Sound known ↔ (known T ∧ (Entries.keys T.schema).Nodup) ∧
      (∀ f ∈ T.schema, (fieldType f.2).Sound known) ∧
        ∀ P, T.parent = some P → (recordType P).Sound known :=
  throughout_recordType

theorem Sound.nodup_keys_fields {r : Record} (h : (record r).Sound known) :
    (Entries.keys r.fields).Nodup := by
  obtain ⟨htyped, htype, -⟩ := sound_record.mp h
  rw [htyped.keys_eq]
  exact (sound_recordType.mp htype).1.2

theorem sound_fieldType_record {T : RecordType} {d : Option Record} :
    (fieldType (.record T d)).Sound known ↔ (recordType T).Sound known ∧
      ∀ r, d = some r → (record r).Sound known := by
  simp only [Sound, throughout_fieldType_record, Regular, true_and]

theorem sound_fieldType_optional {inner : FieldType} {d : Value} :
    (fieldType (.optional inner d)).Sound known ↔
      (fieldType inner).Sound known ∧ (value d).Sound known := by
  simp only [Sound, throughout_fieldType_optional, Regular, true_and]

theorem sound_fieldType_enum {members : List Value} {d : Value} :
    (fieldType (.enum members d)).Sound known ↔
      (value d).Sound known ∧ ∀ m ∈ members, (value m).Sound known := by
  simp only [Sound, throughout_fieldType_enum, Regular, true_and]

theorem sound_fieldType_union {tag : String} {branches : List (String × RecordType)}
    {fallback : Option RecordType} :
    (fieldType (.union tag branches fallback)).Sound known ↔
      ∀ T ∈ RecordType.candidates branches fallback, (recordType T).Sound known := by
  simp only [Sound, throughout_fieldType_union, Regular, true_and]

/-! ## Declared tags -/

/-- What is asked of one part if each union declares its tag. -/
def TagDeclared : Part → Prop
  | fieldType F => F.TagDeclared
  | _ => True

instance : Storageless TagDeclared where
  flat _ := trivial
  list _ := trivial
  map _ := trivial
  record _ := trivial
  fieldType h := h
  put _ _ _ := trivial
  build _ := trivial
  set _ _ := trivial
  toDraft _ := trivial
  commit _ := trivial
  settleEntries _ _ := trivial
  settle _ _ := trivial

end Part

/-- No union that the type consists of, optionals apart, selects a record type that gives the tag a
default. -/
def FieldType.NoTagDefault : FieldType → Prop
  | .optional inner _ => inner.NoTagDefault
  | .union tag branches fallback =>
    ∀ T ∈ RecordType.candidates branches fallback, ∀ d, T.field? tag = some (.str d) → d = none
  | _ => True
termination_by structural F => F

/-- A declared tag without a default is strict. -/
theorem FieldType.tagStrict_of_noTagDefault {F : FieldType}
    (h : (Part.fieldType F).Throughout Part.TagDeclared) (hF : F.NoTagDefault) : F.TagStrict := by
  induction F using FieldType.induction with
  | optional inner d ih =>
    rw [NoTagDefault] at hF
    rw [TagStrict]
    exact ih (Part.throughout_fieldType_optional.mp h).2.1 hF
  | union tag branches fallback =>
    rw [NoTagDefault] at hF
    rw [TagStrict]
    intro T hT
    obtain ⟨d, hd⟩ := h.self T hT
    rw [hd, hF T hT d hd]
  | _ => trivial

end Schemata
