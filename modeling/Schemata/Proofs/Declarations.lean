import Schemata.Proofs.Soundness
import Schemata.RecordType.Declare

/-!
# What declarations preserve

A declaration takes field types and values that exist and makes a field type or a record type of
them. A property of parts that holds throughout what it takes holds throughout what it makes: an
optional keeps its default in the form that its inner type reads, the members of an enumeration and
the record types of a union are taken over, and a schema is built without repeating a key. Only the
new record type itself has to have the property besides, and it is up to whoever declares it to say
so.

For a union there is more to say. Each record type that it can select declares the tag as a string
(`field?_tag_of_unionOf`), perhaps with a default.
-/

namespace Schemata

open Schemata.Part

variable {ok : Part → Prop}

/-! ## Specs -/

/-- The field type or the value by which a field is declared. -/
def FieldSpec.part : FieldSpec → Part
  | type F => .fieldType F
  | literal v => .value v

theorem throughout_of_resolve [Compositional ok] {spec : FieldSpec} {F : FieldType}
    (hspec : spec.part.Throughout ok) (h : spec.resolve = some F) :
    (fieldType F).Throughout ok := by
  cases spec with
  | type G =>
    obtain rfl := Option.some.inj h
    exact hspec
  | literal v =>
    cases v with
    | undefined | null => cases h
    | bool | num | str | list | map =>
      obtain rfl := Option.some.inj h
      exact throughout_of_direct_eq_nil trivial rfl
    | record r =>
      -- A record that is a literal brings its own type along.
      obtain rfl := Option.some.inj h
      have hr := (throughout_value_record.mp hspec).2
      refine throughout_fieldType_record.mpr
        ⟨Compositional.fieldType trivial, (throughout_record.mp hr).2.1, ?_⟩
      intro s hs
      rwa [← Option.some.inj hs]

theorem throughout_of_recordType? [Compositional ok] {spec : FieldSpec} {T : RecordType}
    (hspec : spec.part.Throughout ok) (h : spec.recordType? = some T) :
    (recordType T).Throughout ok := by
  obtain ⟨F, hF, hT⟩ := Option.bind_eq_some_iff.mp h
  cases F with
  | record S d =>
    obtain rfl := Option.some.inj hT
    exact (throughout_fieldType_record.mp (throughout_of_resolve hspec hF)).2.1
  | _ => cases hT

/-! ## Field types -/

namespace FieldType

/-- The optional of a type other than that of all values. What the inner type makes of a default
that is there is there too, so no other default comes in. -/
theorem optionalOf_of_resolve {spec : FieldSpec} {inner : FieldType} (d : Value)
    (hinner : spec.resolve = some inner) (hany : inner.isAny = false) :
    optionalOf spec d =
      if d.isNullish then .ok (.optional inner (inner.orDefault d))
      else ((inner.read d).mapError fun _ ↦ .notOptionalDefault d.display inner.name).map
        (.optional inner) := by
  simp only [optionalOf, hinner, hany, Bool.false_eq_true, if_false]
  split
  · rfl
  · rename_i hd
    cases hread : inner.read d with
    | error e => rfl
    | ok x =>
      have hx : x.isNullish = false := not_nullish_of_read hread (Bool.eq_false_iff.mpr hd)
      cases x with
      | undefined => cases hx
      | _ => rfl

/-- An optional keeps a default in the form in which the inner type reads it. A nullish one is not
read. If it is undefined, the default of the inner type serves. -/
theorem optionalOf_eq_ok_iff {spec : FieldSpec} {d : Value} {F : FieldType} :
    optionalOf spec d = .ok F ↔ ∃ inner d', spec.resolve = some inner ∧ inner.isAny = false ∧
      F = .optional inner d' ∧ (d.isNullish = true → d' = inner.orDefault d) ∧
        (d.isNullish = false → inner.read d = .ok d') := by
  constructor
  · intro h
    cases hinner : spec.resolve with
    | none => simp [optionalOf, hinner] at h
    | some inner =>
      cases hany : inner.isAny with
      | true => simp [optionalOf, hinner, hany] at h
      | false =>
        rw [optionalOf_of_resolve d hinner hany] at h
        cases hd : d.isNullish with
        | true =>
          rw [hd, if_pos rfl] at h
          exact ⟨inner, _, rfl, hany, (Except.ok.inj h).symm, fun _ ↦ rfl, nofun⟩
        | false =>
          rw [hd, if_neg Bool.false_ne_true] at h
          obtain ⟨d', hd', rfl⟩ := map_eq_ok_iff.mp h
          exact ⟨inner, d', rfl, hany, rfl, nofun, fun _ ↦ mapError_eq_ok_iff.mp hd'⟩
  · rintro ⟨inner, d', hinner, hany, rfl, hnullish, hread⟩
    rw [optionalOf_of_resolve d hinner hany]
    cases hd : d.isNullish with
    | true => rw [hnullish hd, if_pos rfl]
    | false =>
      rw [if_neg Bool.false_ne_true]
      exact map_eq_ok_iff.mpr ⟨d', mapError_eq_ok_iff.mpr (hread hd), rfl⟩

theorem optionalOf_eq_ok {spec : FieldSpec} {d : Value} {F : FieldType}
    (h : optionalOf spec d = .ok F) : ∃ inner d', spec.resolve = some inner ∧
      F = .optional inner d' ∧ (d' = inner.defaultValue ∨ d' = d ∨ inner.read d = .ok d') := by
  obtain ⟨inner, d', hinner, -, rfl, hnullish, hread⟩ := optionalOf_eq_ok_iff.mp h
  refine ⟨inner, d', hinner, rfl, ?_⟩
  cases hd : d.isNullish with
  | true =>
    rw [hnullish hd, orDefault]
    split
    · exact Or.inl rfl
    · exact Or.inr (Or.inl rfl)
  | false => exact Or.inr (Or.inr (hread hd))

/-- An enumeration needs a member, and a default that is one. -/
theorem enumOf_eq_ok_iff {members : List Value} {d : Value} {F : FieldType} :
    enumOf members d = .ok F ↔ members.isEmpty = false ∧
      (d.isUndefined = false → d.isAmong members = true) ∧ F = .enum members d := by
  rw [enumOf]
  cases members.isEmpty <;> cases d.isUndefined <;> cases d.isAmong members <;> simp [eq_comm]

theorem eq_enum_of_enumOf {members : List Value} {d : Value} {F : FieldType}
    (h : enumOf members d = .ok F) : F = .enum members d :=
  (enumOf_eq_ok_iff.mp h).2.2

/-- A branch of a union is a record type that declares the tag as a string. -/
theorem branchType_eq_ok_iff {tag branch : String} {spec : FieldSpec} {T : RecordType} :
    branchType tag branch spec = .ok T ↔
      spec.recordType? = some T ∧ ∃ d, T.field? tag = some (.str d) := by
  rw [branchType]
  cases spec.recordType? with
  | none => simp
  | some S =>
    cases hF : S.field? tag with
    | none =>
      simp only [hF, reduceCtorEq, Option.some.injEq, false_iff, not_and, not_exists]
      rintro rfl d
      simp [hF]
    | some F =>
      simp only [hF, Option.some.injEq]
      cases F with
      | str d =>
        simp only [isStr, if_true, Except.ok.injEq]
        constructor
        · rintro rfl
          exact ⟨rfl, d, hF⟩
        · exact fun h ↦ h.1
      | _ =>
        simp only [isStr, Bool.false_eq_true, if_false, reduceCtorEq, false_iff, not_and,
          not_exists]
        rintro rfl d
        simp [hF]

theorem exists_of_mem_branchTypes {tag : String} {branches : List (String × FieldSpec)}
    {types : List (String × RecordType)} (h : branchTypes tag branches = .ok types)
    {b : String × RecordType} (hb : b ∈ types) :
    ∃ e ∈ branches, branchType tag e.1 e.2 = .ok b.2 := by
  induction branches generalizing types with
  | nil =>
    cases h
    cases hb
  | cons e rest ih =>
    obtain ⟨branch, spec⟩ := e
    rw [branchTypes] at h
    cases hT : branchType tag branch spec with
    | error err => simp [hT] at h
    | ok T =>
      rw [hT, map_eq_ok_iff] at h
      obtain ⟨more, hmore, rfl⟩ := h
      rcases List.mem_cons.mp hb with rfl | hb
      · exact ⟨(branch, spec), List.mem_cons_self, hT⟩
      · obtain ⟨e, he, heT⟩ := ih hmore hb
        exact ⟨e, List.mem_cons_of_mem _ he, heT⟩

/-- A union needs a tag, a branch and record types that can be selected by the tag. -/
theorem unionOf_eq_ok_iff {tag : String} {branches : List (String × FieldSpec)}
    {fallback : Option FieldSpec} {F : FieldType} :
    unionOf tag branches fallback = .ok F ↔ tag.isEmpty = false ∧
      ∃ types fallbackType, branchTypes tag branches = .ok types ∧ types.isEmpty = false ∧
        FieldType.fallbackType tag fallback = .ok fallbackType ∧
          F = .union tag (Entries.ofList types) fallbackType := by
  rw [unionOf]
  cases tag.isEmpty with
  | true => simp
  | false =>
    cases branchTypes tag branches with
    | error e => simp
    | ok types =>
      simp only [Bool.false_eq_true, if_false]
      constructor
      · intro h
        split at h
        · cases h
        · obtain ⟨T?, hT, rfl⟩ := map_eq_ok_iff.mp h
          exact ⟨trivial, types, T?, rfl, Bool.eq_false_iff.mpr (by assumption), hT, rfl⟩
      · rintro ⟨-, types', T?, heq, hsome, hT, rfl⟩
        obtain rfl := Except.ok.inj heq
        rw [if_neg (Bool.eq_false_iff.mp hsome)]
        exact map_eq_ok_iff.mpr ⟨T?, hT, rfl⟩

/-- A union that is declared selects the record types of the specs that it was declared with. -/
theorem exists_union_of_unionOf {tag : String} {branches : List (String × FieldSpec)}
    {fallback : Option FieldSpec} {F : FieldType} (h : unionOf tag branches fallback = .ok F) :
    ∃ types fallbackType, F = .union tag types fallbackType ∧
      ∀ T ∈ RecordType.candidates types fallbackType, ∃ branch spec,
        ((branch, spec) ∈ branches ∨ fallback = some spec) ∧
          branchType tag branch spec = .ok T := by
  obtain ⟨-, types, fallbackType, htypes, -, hfallback, rfl⟩ := unionOf_eq_ok_iff.mp h
  refine ⟨_, _, rfl, fun T hT ↦ ?_⟩
  rcases List.mem_append.mp hT with hT | hT
  · obtain ⟨b, hb, rfl⟩ := List.mem_map.mp hT
    obtain ⟨e, he, heT⟩ := exists_of_mem_branchTypes htypes (Entries.mem_ofList hb)
    exact ⟨e.1, e.2, Or.inl he, heT⟩
  · cases fallback with
    | none =>
      obtain rfl := Except.ok.inj hfallback
      cases hT
    | some spec =>
      obtain ⟨S, hS, rfl⟩ := map_eq_ok_iff.mp hfallback
      rw [Option.toList_some, List.mem_singleton] at hT
      subst hT
      exact ⟨_, spec, Or.inr rfl, hS⟩

/-- Each record type that a declared union can select declares the tag as a string. -/
theorem field?_tag_of_unionOf {tag tag' : String} {branches : List (String × FieldSpec)}
    {fallback : Option FieldSpec} {types : List (String × RecordType)}
    {fallbackType : Option RecordType}
    (h : unionOf tag branches fallback = .ok (.union tag' types fallbackType)) :
    tag' = tag ∧ ∀ T ∈ RecordType.candidates types fallbackType,
      ∃ d, T.field? tag = some (.str d) := by
  obtain ⟨types', fallbackType', heq, hT⟩ := exists_union_of_unionOf h
  rw [union.injEq] at heq
  obtain ⟨rfl, rfl, rfl⟩ := heq
  refine ⟨rfl, fun T hmem ↦ ?_⟩
  obtain ⟨branch, spec, -, hbranch⟩ := hT T hmem
  exact (branchType_eq_ok_iff.mp hbranch).2

end FieldType

theorem throughout_of_optionalOf [Invariant ok] {spec : FieldSpec} {d : Value} {F : FieldType}
    (hspec : spec.part.Throughout ok) (hd : (value d).Throughout ok)
    (h : FieldType.optionalOf spec d = .ok F) : (fieldType F).Throughout ok := by
  obtain ⟨inner, d', hinner, rfl, hd'⟩ := FieldType.optionalOf_eq_ok h
  have hok := throughout_of_resolve hspec hinner
  refine throughout_fieldType_optional.mpr ⟨Compositional.fieldType trivial, hok, ?_⟩
  rcases hd' with rfl | rfl | hread
  · exact throughout_defaultValue hok
  · exact hd
  · exact throughout_of_read hok hd hread

section

variable [Compositional ok]

theorem throughout_of_enumOf {members : List Value} {d : Value} {F : FieldType}
    (hmembers : ∀ m ∈ members, (value m).Throughout ok) (hd : (value d).Throughout ok)
    (h : FieldType.enumOf members d = .ok F) : (fieldType F).Throughout ok := by
  obtain rfl := FieldType.eq_enum_of_enumOf h
  exact throughout_fieldType_enum.mpr ⟨Compositional.fieldType trivial, hd, hmembers⟩

theorem throughout_of_enumOfList {members d : Value} {F : FieldType}
    (hmembers : (value members).Throughout ok) (hd : (value d).Throughout ok)
    (h : FieldType.enumOfList members d = .ok F) : (fieldType F).Throughout ok := by
  cases members with
  | list items => exact throughout_of_enumOf (throughout_list.mp hmembers).2 hd h
  | _ => cases h

theorem throughout_of_unionOf {tag : String} {branches : List (String × FieldSpec)}
    {fallback : Option FieldSpec} {F : FieldType}
    (hbranches : ∀ e ∈ branches, e.2.part.Throughout ok)
    (hfallback : ∀ spec, fallback = some spec → spec.part.Throughout ok)
    (h : FieldType.unionOf tag branches fallback = .ok F) : (fieldType F).Throughout ok := by
  obtain ⟨types, fallbackType, rfl, hT⟩ := FieldType.exists_union_of_unionOf h
  have htags : (FieldType.union tag types fallbackType).TagDeclared := by
    intro T hmem
    obtain ⟨branch, spec, -, hbranch⟩ := hT T hmem
    exact (FieldType.branchType_eq_ok_iff.mp hbranch).2
  refine throughout_fieldType_union.mpr ⟨Compositional.fieldType htags, fun T hmem ↦ ?_⟩
  obtain ⟨branch, spec, hspec, hbranch⟩ := hT T hmem
  have hok : spec.part.Throughout ok := hspec.elim (hbranches (branch, spec)) (hfallback spec)
  exact throughout_of_recordType? hok (FieldType.branchType_eq_ok_iff.mp hbranch).1

end

/-! ## Record types -/

section

variable {fields : List (String × FieldSpec)} {schema : List (String × FieldType)}

/-- Each declaration keeps its key and has the field type that its spec stands for. -/
theorem resolveFields_eq_ok_iff : resolveFields fields = .ok schema ↔
    schema.map (fun f ↦ (f.1, some f.2)) = fields.map fun d ↦ (d.1, d.2.resolve) := by
  induction fields generalizing schema with
  | nil => rw [resolveFields, Except.ok.injEq, List.map_nil, List.map_eq_nil_iff, eq_comm]
  | cons d rest ih =>
    obtain ⟨key, spec⟩ := d
    rw [resolveFields, List.map_cons]
    cases hF : spec.resolve with
    | none => cases schema <;> simp
    | some F =>
      simp only [map_eq_ok_iff, ih]
      constructor
      · rintro ⟨more, hmore, rfl⟩
        rw [List.map_cons, hmore]
      · intro h
        cases schema with
        | nil => cases h
        | cons f more =>
          obtain ⟨k, G⟩ := f
          rw [List.map_cons, List.cons.injEq, Prod.mk.injEq, Option.some.injEq] at h
          obtain ⟨⟨rfl, rfl⟩, hmore⟩ := h
          exact ⟨more, hmore, rfl⟩

theorem keys_of_resolveFields (h : resolveFields fields = .ok schema) :
    Entries.keys schema = Entries.keys fields := by
  rw [← Entries.keys_map some schema, resolveFields_eq_ok_iff.mp h, Entries.keys_map]

/-- What a field of a schema was declared by. -/
theorem exists_resolve_of_mem_resolveFields (h : resolveFields fields = .ok schema)
    {f : String × FieldType} (hf : f ∈ schema) : ∃ d ∈ fields, d.2.resolve = some f.2 := by
  have hmem : (f.1, some f.2) ∈ fields.map fun d ↦ (d.1, d.2.resolve) :=
    resolveFields_eq_ok_iff.mp h ▸ List.mem_map_of_mem hf
  obtain ⟨d, hd, heq⟩ := List.mem_map.mp hmem
  exact ⟨d, hd, (Prod.mk.inj heq).2⟩

theorem throughout_of_resolveFields [Compositional ok]
    (hfields : ∀ e ∈ fields, e.2.part.Throughout ok) (h : resolveFields fields = .ok schema) :
    ∀ f ∈ schema, (fieldType f.2).Throughout ok := by
  intro f hf
  obtain ⟨d, hd, hF⟩ := exists_resolve_of_mem_resolveFields h hf
  exact throughout_of_resolve (hfields d hd) hF

end

section

variable {id : Nat} {T base : RecordType} {fields : Entries FieldSpec} {label : Option String}

theorem RecordType.id_of_declare (h : declare id fields label = .ok T) : T.id = id := by
  obtain ⟨schema, -, rfl⟩ := map_eq_ok_iff.mp h
  rfl

/-- An extension needs fields, and each of them a type. -/
theorem RecordType.extend_eq_ok_iff : base.extend id fields label = .ok T ↔
    fields ≠ [] ∧ ∃ added, resolveFields fields = .ok added ∧
      T = derived id base (Entries.putAll base.schema added) label
        ((Entries.keys added).map fun key ↦ (key, .draftOnly key)) := by
  rw [extend, ne_eq, ← List.isEmpty_iff]
  cases fields.isEmpty with
  | true => simp
  | false =>
    rw [if_neg Bool.false_ne_true, map_eq_ok_iff]
    simp [eq_comm]

theorem RecordType.id_of_extend (h : base.extend id fields label = .ok T) : T.id = id := by
  obtain ⟨-, added, -, rfl⟩ := extend_eq_ok_iff.mp h
  rfl

theorem RecordType.exists_extend_of_extendSpec {spec : FieldSpec}
    (h : extendSpec id spec fields label = .ok T) :
    ∃ base, spec.recordType? = some base ∧ base.extend id fields label = .ok T := by
  rw [extendSpec] at h
  split at h
  · cases h
  · exact ⟨_, by assumption, h⟩

theorem RecordType.id_of_extendSpec {spec : FieldSpec}
    (h : extendSpec id spec fields label = .ok T) : T.id = id :=
  have ⟨_, _, hbase⟩ := exists_extend_of_extendSpec h
  id_of_extend hbase

theorem RecordType.nodup_keys_of_declare (hkeys : (Entries.keys fields).Nodup)
    (h : declare id fields label = .ok T) : (Entries.keys T.schema).Nodup := by
  obtain ⟨schema, hschema, rfl⟩ := map_eq_ok_iff.mp h
  rwa [keys_of_resolveFields hschema]

theorem RecordType.nodup_keys_of_extend (hkeys : (Entries.keys base.schema).Nodup)
    (h : base.extend id fields label = .ok T) : (Entries.keys T.schema).Nodup := by
  obtain ⟨-, added, -, rfl⟩ := extend_eq_ok_iff.mp h
  exact Entries.nodup_keys_putAll hkeys added

theorem throughout_derived {schema : Entries FieldType} {properties : Entries Property}
    (hbase : (recordType base).Throughout ok)
    (hschema : ∀ f ∈ schema, (fieldType f.2).Throughout ok)
    (hT : ok (recordType (.derived id base schema label properties))) :
    (recordType (.derived id base schema label properties)).Throughout ok := by
  refine throughout_recordType.mpr ⟨hT, hschema, ?_⟩
  intro P hP
  rwa [← Option.some.inj hP]

theorem throughout_relabelled {name : String} (hbase : (recordType base).Throughout ok)
    (hT : ok (recordType (base.relabelled id name))) :
    (recordType (base.relabelled id name)).Throughout ok :=
  throughout_derived hbase (throughout_recordType.mp hbase).2.1 hT

variable [Compositional ok]

theorem throughout_of_declare (hfields : ∀ e ∈ fields, e.2.part.Throughout ok)
    (h : RecordType.declare id fields label = .ok T) (hT : ok (recordType T)) :
    (recordType T).Throughout ok := by
  obtain ⟨schema, hschema, rfl⟩ := map_eq_ok_iff.mp h
  exact throughout_recordType.mpr
    ⟨hT, throughout_of_resolveFields hfields hschema, fun _ hP ↦ nomatch hP⟩

theorem throughout_of_extend (hbase : (recordType base).Throughout ok)
    (hfields : ∀ e ∈ fields, e.2.part.Throughout ok) (h : base.extend id fields label = .ok T)
    (hT : ok (recordType T)) : (recordType T).Throughout ok := by
  obtain ⟨-, added, hadded, rfl⟩ := RecordType.extend_eq_ok_iff.mp h
  refine throughout_derived hbase ?_ hT
  intro f hf
  rcases Entries.mem_putAll hf with hf | hf
  · exact (throughout_recordType.mp hbase).2.1 f hf
  · exact throughout_of_resolveFields hfields hadded f hf

end

end Schemata
