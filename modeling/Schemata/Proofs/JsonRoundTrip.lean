import Schemata.Proofs.PlainValues
import Schemata.Proofs.Sessions

/-!
# From a record to JSON and back

The JSON form of a record forgets three things: fields that are undefined, the types of the records
in it, and whatever JSON cannot say. Building the record's type from that form has to bring all of
it back, and it does for a *portable* record (`Record.Portable`). An absent field returns because
only a field without a default is ever undefined; a nested record returns because its own field, or
the tag under which it is stored, says of which type it is; and values that a field type does not
take apart are asked to be plain.

Everything is compared by contents, since the storage of what is built is new.

## The induction

It goes over field types, with a statement about every value that a field of the type holds
(`read_toJson`). Reading never looks at a value again that it has accepted as an instance, so what
is nested in a record is reached through the record's own type. That this type is the one that was
declared, and not another one with the same number, is what the registry of the session is for.
-/

namespace Schemata

open Schemata.Part

/-! ## Portable records -/

/-- A field of this type holds the value in the one form that can be told from its JSON form. -/
def FieldType.HoldsExactly : FieldType → Value → Prop
  | .any, v => v = .undefined ∨ v.Plain
  | .record T _, v => ∀ s, v = .record s → s.type.identical T = true
  | .optional inner _, v => inner.HoldsExactly v
  | .union tag branches fallback, v => ∀ s, v = .record s → ∃ text T,
    s.get? tag = some (.str text) ∧ RecordType.select? branches fallback text = some T ∧
      s.type.identical T = true
  | _, _ => True
termination_by structural F => F

/-- What is asked of one part, whatever is nested in it: numbers are finite, fields hold exactly
what they say, and the members of an enumeration are plain. -/
def Part.Portable : Part → Prop
  | value (.num n) => n.isFinite = true
  | record r => ∀ key F v, r.type.field? key = some F → r.get? key = some v → F.HoldsExactly v
  | fieldType (.enum members _) => ∀ m ∈ members, m.Plain
  | _ => True

/-- A record that its JSON form says all about. -/
structure Record.Portable (r : Record) : Prop where
  /-- All numbers in it are finite, and all records in it hold exactly what their fields say. -/
  nested : ∀ p : Part, p.NestedIn (.record r) → p.Portable
  /-- All enumerations that its type leads to have plain members. -/
  type : ∀ p : Part, p.NestedIn (.recordType r.type) → p.Portable

variable {known : RecordType → Prop}

/-! ## Fields in transit -/

/-- What the way to JSON and back needs to know about a value and the type of its field. -/
structure FieldType.Carries (known : RecordType → Prop) (F : FieldType) (v : Value) : Prop where
  soundType : (Part.fieldType F).Sound known
  sound : (Part.value v).Sound known
  portableType : ∀ p : Part, p.NestedIn (.fieldType F) → p.Portable
  portable : ∀ p : Part, p.NestedIn (.value v) → p.Portable
  holds : F.Holds v
  exact : F.HoldsExactly v

theorem Record.exists_carries {r : Record} (hsound : (Part.record r).Sound known)
    (hr : r.Portable) {key : String} {F : FieldType} (hF : r.type.field? key = some F) :
    ∃ v, r.get? key = some v ∧ F.Carries known v := by
  obtain ⟨htyped, htype, hfields⟩ := sound_record.mp hsound
  obtain ⟨v, hv, hholds⟩ := htyped.exists_holds hF
  have hmem : (key, v) ∈ r.fields := Entries.mem_of_get?_eq_some hv
  have hvalue : (Part.value v).NestedIn (.record r) :=
    nestedIn_of_mem_nested (List.mem_map_of_mem (f := fun e ↦ Part.value e.2) hmem)
  have hfield : (Part.fieldType F).NestedIn (.recordType r.type) :=
    nestedIn_of_mem_nested (List.mem_map_of_mem (f := fun f ↦ Part.fieldType f.2)
      (Entries.mem_of_get?_eq_some hF))
  exact ⟨v, hv,
    { soundType := throughout_of_field? htype hF
      sound := hfields _ hmem
      portableType := fun p hp ↦ hr.type p (hp.trans hfield)
      portable := fun p hp ↦ hr.nested p (hp.trans hvalue)
      holds := hholds
      exact := hr.nested _ (NestedIn.refl _) key F v hF hv }⟩

theorem FieldType.Holds.read_undefined {F : FieldType} (h : F.Holds .undefined) :
    F.read .undefined = .ok .undefined := by
  have hdefault : F.orDefault .undefined = .undefined := h.defaultValue rfl
  have hconforms := h.conforms
  cases F with
  | any => rfl
  | bool | num | str | record => cases hconforms
  | optional inner d =>
    rw [read_optional_eq_ok_iff, hdefault]
    rfl
  | enum members d => exact read_enum_eq_ok_iff.mpr ⟨hdefault.symm, hconforms⟩
  | union tag branches fallback =>
    obtain ⟨T, -, hT⟩ := List.any_eq_true.mp hconforms
    cases hT

theorem FieldType.Holds.of_optional {inner : FieldType} {d v : Value}
    (h : (FieldType.optional inner d).Holds v) (hv : v.isNullish = false) : inner.Holds v where
  conforms := by
    have hconforms := h.conforms
    rwa [FieldType.conforms, hv, Bool.false_or] at hconforms
  defaultValue := by
    rintro rfl
    cases hv
  read hinner := by
    have hread := h.read hinner
    rwa [read_optional_eq_ok_iff, orDefault_of_not_nullish hv, hv] at hread

/-! ## The round trip -/

/-- What a field of type `F` carries comes back with the same contents. -/
def FieldType.Returns (known : RecordType → Prop) (F : FieldType) : Prop :=
  ∀ v, F.Carries known v → v ≠ .undefined →
    ∃ w, F.read v.toJson.toValue = .ok w ∧ w.contents = v.contents

theorem FieldType.Carries.toValue_toJson_num {F : FieldType} {n : Number}
    (h : F.Carries known (.num n)) : (Value.num n).toJson.toValue = .num n := by
  have hn : n.isFinite = true := h.portable _ (NestedIn.refl _)
  rw [Value.toJson, if_pos hn]
  rfl

/-- The JSON form of a value that is there is there. -/
theorem FieldType.Carries.isNullish_toJson {F : FieldType} {v : Value} (h : F.Carries known v)
    (hv : v.isNullish = false) : v.toJson.toValue.isNullish = false := by
  cases v with
  | num n =>
    rw [h.toValue_toJson_num]
    rfl
  | undefined | null => cases hv
  | record r =>
    obtain ⟨S, i, fields, draft⟩ := r
    rfl
  | _ => rfl

theorem FieldType.Carries.of_optional {inner : FieldType} {d v : Value}
    (h : (FieldType.optional inner d).Carries known v) (hv : v.isNullish = false) :
    inner.Carries known v where
  soundType := (sound_fieldType_optional.mp h.soundType).1
  sound := h.sound
  portableType p hp :=
    h.portableType p (hp.trans (nestedIn_of_mem_nested (List.mem_singleton_self _)))
  portable := h.portable
  holds := h.holds.of_optional hv
  exact := by
    have hexact := h.exact
    rwa [HoldsExactly] at hexact

theorem FieldType.returns_optional {inner : FieldType} {d : Value} (ih : inner.Returns known) :
    (FieldType.optional inner d).Returns known := by
  intro v hv hne
  cases hnull : v.isNullish with
  | true =>
    obtain rfl : v = .null := by
      cases v with
      | null => rfl
      | undefined => exact absurd rfl hne
      | _ => cases hnull
    exact ⟨.null, rfl, rfl⟩
  | false =>
    have hread := hv.isNullish_toJson hnull
    obtain ⟨w, hw, hcontents⟩ := ih v (hv.of_optional hnull) hne
    refine ⟨w, ?_, hcontents⟩
    rw [read_optional_eq_ok_iff, orDefault_of_not_nullish hread, hread]
    exact hw

/-- A member of an enumeration is plain and comes back as it is. -/
theorem FieldType.returns_enum {members : List Value} {d : Value} :
    (FieldType.enum members d).Returns known := by
  intro v hv _
  obtain ⟨-, hmembers⟩ := sound_fieldType_enum.mp hv.soundType
  have hplain : v.Plain := Value.plain_of_isAmong (hv.portableType _ (NestedIn.refl _))
    hv.holds.conforms hmembers hv.sound fun n hn ↦ hv.portable _ hn
  have hdefault : (enum members d).orDefault v = v := by
    rw [orDefault, Value.not_undefined_of_plain hplain]
    rfl
  refine ⟨v, ?_, rfl⟩
  rw [Value.toValue_toJson_of_plain hplain hv.sound, read_enum_eq_ok_iff, hdefault]
  exact ⟨rfl, hv.holds.conforms⟩

private theorem exists_readField_toJson {F : FieldType} {v : Value} (hF : F.Returns known)
    (hv : F.Carries known v) (key : String) : ∃ w,
      F.readField key (if v.isUndefined then .undefined else v.toJson.toValue) = .ok w ∧
        w.contents = v.contents := by
  by_cases hundefined : v.isUndefined = true
  · obtain rfl : v = .undefined := Value.isUndefined_iff.mp hundefined
    have hdefault : F.orDefault .undefined = .undefined := hv.holds.defaultValue rfl
    refine ⟨.undefined, ?_, rfl⟩
    rw [if_pos hundefined, FieldType.readField_eq_ok_iff, hdefault]
    exact hv.holds.read_undefined
  · have hne : v ≠ .undefined := fun h ↦ hundefined (Value.isUndefined_iff.mpr h)
    have hdefault : F.orDefault v.toJson.toValue = v.toJson.toValue := by
      cases hx : v.toJson.toValue with
      | undefined => exact absurd hx v.toJson.toValue_ne_undefined
      | _ => rfl
    obtain ⟨w, hw, hcontents⟩ := hF v hv hne
    refine ⟨w, ?_, hcontents⟩
    rw [if_neg hundefined, FieldType.readField_eq_ok_iff, hdefault]
    exact hw

theorem Record.exists_build_toJson {r : Record} (hsound : (Part.record r).Sound known)
    (hr : r.Portable) (ih : ∀ f ∈ r.type.schema, f.2.Returns known) :
    ∃ r', r.type.build (Value.record r).toJson.toValue = .ok r' ∧ r'.contents = r.contents := by
  obtain ⟨htyped, htype, -⟩ := sound_record.mp hsound
  have hkeys : (Entries.keys r.type.schema).Nodup := (sound_recordType.mp htype).1.2
  have hnodup := hsound.nodup_keys_fields
  have hread : ∀ key F, r.type.field? key = some F → ∃ w,
      F.readField key ((Value.record r).toJson.toValue.getD key) = .ok w ∧
        Entries.get? (contentsEntries r.fields) key = some w.contents := by
    intro key F hF
    obtain ⟨v, hv, hcarries⟩ := r.exists_carries hsound hr hF
    have hget : Entries.get? r.fields key = some v := hv
    have hgetD : (Value.record r).toJson.toValue.getD key =
        if v.isUndefined then .undefined else v.toJson.toValue := by
      rw [Value.toValue_toJson_record hnodup, Value.getD, Value.get?,
        get?_toValues_toJson hnodup, hget, Option.bind_some]
      split <;> rfl
    have hreturns := ih (key, F) (Entries.mem_of_get?_eq_some hF)
    obtain ⟨w, hw, hcontents⟩ := exists_readField_toJson hreturns hcarries key
    exact ⟨w, hgetD ▸ hw, by rw [get?_contentsEntries, hget, Option.map_some, hcontents]⟩
  obtain ⟨fields, hfields, hcontents⟩ := exists_readFields_eq Value.contents
    ((keys_contentsEntries r.fields).trans htyped.keys_eq) hkeys hread
  rw [← contentsEntries_eq_map] at hcontents
  refine ⟨_, RecordType.build_eq_ok_iff.mpr ⟨fields, hfields, rfl⟩, ?_⟩
  obtain ⟨T, i, fs, draft⟩ := r
  rw [contents, contents, hcontents]

section

variable {supply : Nat} (hreg : Session.Registry supply known)
include hreg

/-- A nested record comes back where the record type that takes it in is its own. -/
theorem Record.exists_convert_toJson {r : Record} {T : RecordType}
    (hsound : (Part.record r).Sound known) (hT : (Part.recordType T).Sound known)
    (hid : r.type.identical T = true) (hnested : ∀ p : Part, p.NestedIn (.record r) → p.Portable)
    (htype : ∀ p : Part, p.NestedIn (.recordType T) → p.Portable)
    (ih : ∀ f ∈ T.schema, f.2.Returns known) :
    ∃ w, T.convert (Value.record r).toJson.toValue = .ok w ∧
      w.contents = (Value.record r).contents := by
  obtain ⟨-, hself, -⟩ := sound_record.mp hsound
  -- Two known types with one number are one type.
  have hknown : known r.type := (sound_recordType.mp hself).1.1
  obtain rfl : r.type = T := hreg.eq_of_identical hknown (sound_recordType.mp hT).1.1 hid
  obtain ⟨r', hr', hcontents⟩ := r.exists_build_toJson hsound ⟨hnested, htype⟩ ih
  have hnodup := hsound.nodup_keys_fields
  have hmap : ¬(Value.record r).toJson.toValue.isInstanceOf r.type = true := by
    rw [Value.toValue_toJson_record hnodup]
    exact Bool.false_ne_true
  refine ⟨.record r', ?_, congrArg Value.record hcontents⟩
  rw [RecordType.convert_eq_ok_iff, if_neg hmap]
  exact ⟨r', hr', rfl⟩

theorem FieldType.returns_record {T : RecordType} {d : Option Record}
    (ih : ∀ f ∈ T.schema, f.2.Returns known) : (FieldType.record T d).Returns known := by
  intro v hv _
  obtain ⟨r, rfl⟩ := Value.exists_record_of_isInstanceOf (T := T) hv.holds.conforms
  have hexact := hv.exact
  rw [HoldsExactly] at hexact
  have hvalue : (Part.record r).NestedIn (.value (.record r)) :=
    nestedIn_of_mem_nested (List.mem_singleton_self _)
  have htype : (Part.recordType T).NestedIn (.fieldType (.record T d)) :=
    nestedIn_of_mem_nested (List.mem_singleton_self _)
  obtain ⟨w, hw, hcontents⟩ := r.exists_convert_toJson hreg (sound_value_record.mp hv.sound)
    (sound_fieldType_record.mp hv.soundType).1 (hexact r rfl)
    (fun p hp ↦ hv.portable p (hp.trans hvalue))
    (fun p hp ↦ hv.portableType p (hp.trans htype)) ih
  refine ⟨w, read_record_eq_ok_iff.mpr ⟨Or.inl ?_, hw⟩, hcontents⟩
  obtain ⟨S, i, fields, draft⟩ := r
  rfl

/-- The tag that selects the type of a record again is its own: a string, which is there in the JSON
form and stays the same. -/
theorem FieldType.returns_union {tag : String} {branches : List (String × RecordType)}
    {fallback : Option RecordType}
    (ih : ∀ T ∈ RecordType.candidates branches fallback, ∀ f ∈ T.schema, f.2.Returns known) :
    (FieldType.union tag branches fallback).Returns known := by
  intro v hv _
  obtain ⟨S, -, hinstance⟩ := List.any_eq_true.mp hv.holds.conforms
  obtain ⟨r, rfl⟩ := Value.exists_record_of_isInstanceOf hinstance
  have hexact := hv.exact
  rw [HoldsExactly] at hexact
  obtain ⟨text, T, htag, hselect, hid⟩ := hexact r rfl
  have hmem := RecordType.mem_candidates_of_select? hselect
  have hvalue : (Part.record r).NestedIn (.value (.record r)) :=
    nestedIn_of_mem_nested (List.mem_singleton_self _)
  have htype : (Part.recordType T).NestedIn (.fieldType (.union tag branches fallback)) :=
    nestedIn_of_mem_nested (List.mem_map_of_mem hmem)
  have hsound := sound_value_record.mp hv.sound
  obtain ⟨w, hw, hcontents⟩ := r.exists_convert_toJson hreg hsound
    (sound_fieldType_union.mp hv.soundType T hmem) hid
    (fun p hp ↦ hv.portable p (hp.trans hvalue))
    (fun p hp ↦ hv.portableType p (hp.trans htype)) (ih T hmem)
  refine ⟨w, read_union_eq_ok_iff.mpr ⟨.str text, T, ?_, hselect, hw⟩, hcontents⟩
  have hnodup := hsound.nodup_keys_fields
  have hget : Entries.get? r.fields tag = some (.str text) := htag
  rw [Value.toValue_toJson_record hnodup, Value.get?, get?_toValues_toJson hnodup, hget]
  rfl

/-- **Every field type brings back what it carries.** -/
theorem FieldType.returns (F : FieldType) : F.Returns known := by
  induction F using FieldType.induction with
  | any =>
    intro v hv hne
    have hexact := hv.exact
    rw [HoldsExactly] at hexact
    have hself := Value.toValue_toJson_of_plain (hexact.resolve_left hne) hv.sound
    exact ⟨v, read_any_eq_ok_iff.mpr hself.symm, rfl⟩
  | bool d =>
    intro v hv _
    have hconforms := hv.holds.conforms
    cases v with
    | bool b => exact ⟨.bool b, rfl, rfl⟩
    | _ => cases hconforms
  | num d =>
    intro v hv _
    have hconforms := hv.holds.conforms
    cases v with
    | num n => exact ⟨.num n, by rw [hv.toValue_toJson_num]; rfl, rfl⟩
    | _ => cases hconforms
  | str d =>
    intro v hv _
    have hconforms := hv.holds.conforms
    cases v with
    | str t => exact ⟨.str t, rfl, rfl⟩
    | _ => cases hconforms
  | record T d ih => exact returns_record hreg ih
  | optional inner d ih => exact returns_optional ih
  | enum members d => exact returns_enum
  | union tag branches fallback ih => exact returns_union hreg ih

end

/-- **A portable record survives JSON.** Its type builds, from the value that its JSON form stands
for, a record of the same type with the same keys in the same order and, under each, a value with
the same contents. -/
theorem Record.exists_construct_toJson {r : Record} (hr : Session.Reachable (.record r))
    (hportable : r.Portable) :
    ∃ r', r.type.construct (Value.record r).toJson.toValue = .ok r' ∧ r'.type = r.type ∧
      Entries.keys r'.fields = Entries.keys r.fields ∧
        contentsEntries r'.fields = contentsEntries r.fields := by
  obtain ⟨_, known, hreg, hsound⟩ := Session.exists_sound_of_reachable hr
  obtain ⟨r', hr', hcontents⟩ :=
    r.exists_build_toJson hsound hportable fun f _ ↦ f.2.returns hreg
  have hfields : contentsEntries r'.fields = contentsEntries r.fields := by
    rw [← fields_contents, hcontents, fields_contents]
  refine ⟨r', ?_, ?_, ?_, hfields⟩
  · have hmap := Value.toValue_toJson_record hsound.nodup_keys_fields
    refine RecordType.construct_eq_ok_iff.mpr ⟨Or.inr (Or.inl ?_), hr'⟩
    rw [hmap]
    rfl
  · rw [← type_contents, hcontents, type_contents]
  · rw [← keys_contentsEntries, hfields, keys_contentsEntries]

theorem portable_drawing : Session.drawing.Portable where
  nested := by
    have hcircle : (Part.record Session.circle).Portable := by
      intro key F v hF hv
      have hmem := Entries.mem_of_get?_eq_some hF
      rcases List.mem_cons.mp hmem with h | h
      · obtain ⟨-, rfl⟩ := Prod.mk.inj h
        trivial
      · obtain ⟨-, rfl⟩ := Prod.mk.inj (List.mem_singleton.mp h)
        trivial
    have hdrawing : (Part.record Session.drawing).Portable := by
      intro key F v hF hv
      have hmem := Entries.mem_of_get?_eq_some hF
      rcases List.mem_cons.mp hmem with h | h
      · obtain ⟨-, rfl⟩ := Prod.mk.inj h
        trivial
      · obtain ⟨rfl, rfl⟩ := Prod.mk.inj (List.mem_singleton.mp h)
        intro r hr
        obtain rfl : Value.record Session.circle = v := Option.some.inj hv
        obtain rfl := Value.record.inj hr
        exact ⟨"circle", Session.circleType, rfl, rfl, rfl⟩
    have hleaf : ∀ v : Value, (Part.value v).nested = [] → (Part.value v).Portable →
        ∀ p : Part, p.NestedIn (.value v) → p.Portable :=
      fun v hv hp ↦ forall_nestedIn hp (hv ▸ List.forall_mem_nil _)
    refine forall_nestedIn hdrawing (List.forall_mem_cons.mpr ⟨hleaf _ rfl trivial, ?_⟩)
    refine List.forall_mem_singleton.mpr (forall_nestedIn trivial ?_)
    refine List.forall_mem_singleton.mpr (forall_nestedIn hcircle ?_)
    exact List.forall_mem_cons.mpr
      ⟨hleaf _ rfl trivial, List.forall_mem_singleton.mpr (hleaf _ rfl trivial)⟩
  type := by
    have hleaf : ∀ F : FieldType, (Part.fieldType F).nested = [] → (Part.fieldType F).Portable →
        ∀ p : Part, p.NestedIn (.fieldType F) → p.Portable :=
      fun F hF hp ↦ forall_nestedIn hp (hF ▸ List.forall_mem_nil _)
    have hcircle : ∀ p : Part, p.NestedIn (.recordType Session.circleType) → p.Portable :=
      forall_nestedIn trivial (List.forall_mem_cons.mpr
        ⟨hleaf _ rfl trivial, List.forall_mem_singleton.mpr (hleaf _ rfl trivial)⟩)
    refine forall_nestedIn trivial (List.forall_mem_cons.mpr ⟨?_, ?_⟩)
    · exact forall_nestedIn trivial (List.forall_mem_singleton.mpr (hleaf _ rfl trivial))
    · refine List.forall_mem_singleton.mpr (forall_nestedIn trivial ?_)
      exact List.forall_mem_singleton.mpr hcircle

theorem exists_construct_toJson_drawing :
    ∃ r', Session.drawingType.construct (Value.record Session.drawing).toJson.toValue = .ok r' ∧
      r'.type = Session.drawingType ∧
        Entries.keys r'.fields = Entries.keys Session.drawing.fields ∧
          contentsEntries r'.fields = contentsEntries Session.drawing.fields :=
  Record.exists_construct_toJson (Session.reachable_of_record Session.record_drawing)
    portable_drawing

end Schemata
