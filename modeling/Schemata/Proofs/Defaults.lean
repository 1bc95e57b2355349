import Schemata.Proofs.Sessions

/-!
# Defaults that fit

A default stands in for an absent value, and it is read like one that was given. Nobody looks at it
before that: a literal brings its own type along and becomes its default, an optional takes over the
default of the type inside it, and only a default that an optional or an enumeration is declared
with goes through a check. So that a default is always accepted, and is the very value that is
stored, needs a proof.

A field type whose default *fits* (`FieldType.DefaultFits`) has one that it would keep. Each
declaration makes such types of such types, and since a session knows no others, all that is
reachable are of this kind (`Session.defaultFits_of_reachable`). Where tags are strict it follows
that a default is read as it is (`FieldType.DefaultFits.read_defaultValue`).

The property cannot be an invariant of single parts. It is about the field type that is put
together, not about the parts that it is put together from. The schemas of record types and the
field types with a name are looked at separately for this reason (`Session.DefaultsFit`), and every
other field type is the inner type of an optional.
-/

namespace Schemata

open Schemata.Part

/-! ## Field types -/

namespace FieldType

variable {F inner : FieldType} {d v : Value}

/-- The default of the type, and that of each type inside its optionals, is a value of the type. For
an optional this means that the inner type keeps it, as far as tags are strict. -/
def DefaultFits : FieldType → Prop
  | .record T d => ∀ r, d = some r → r.isInstanceOf T = true
  | .optional inner d =>
    inner.DefaultFits ∧ (d.isNullish = false → inner.TagStrict → inner.read d = .ok d)
  | .enum members d => d.isUndefined = false → d.isAmong members = true
  | _ => True
termination_by structural F => F

/-- An optional gives its default for whatever it takes for it, if its inner type keeps it. -/
theorem read_optional_of_orDefault (hv : (optional inner d).orDefault v = d)
    (h : d.isNullish = false → inner.read d = .ok d) : (optional inner d).read v = .ok d := by
  rw [read_optional_eq_ok_iff, hv]
  split
  · rfl
  · rename_i hd
    exact h (Bool.eq_false_iff.mpr hd)

/-- **A default that fits is read as it is.** -/
theorem DefaultFits.read_defaultValue (h : F.DefaultFits) (hF : F.TagStrict)
    (hd : F.defaultValue ≠ .undefined) : F.read F.defaultValue = .ok F.defaultValue := by
  cases F with
  | any | union => exact absurd rfl hd
  | bool d | num d | str d =>
    cases d with
    | none => exact absurd rfl hd
    | some x => rfl
  | record T d =>
    cases d with
    | none => exact absurd rfl hd
    | some r =>
      have hinst : (Value.record r).isInstanceOf T = true := h r rfl
      exact read_record_eq_ok_iff.mpr ⟨Or.inr rfl, RecordType.convert_eq_self_iff.mpr hinst⟩
  | optional inner d =>
    exact read_optional_of_orDefault (orDefault_defaultValue _) fun hnullish ↦ h.2 hnullish hF
  | enum members d =>
    have hmember : d.isAmong members = true := h (Value.isUndefined_eq_false_iff.mpr hd)
    exact read_enum_eq_ok_iff.mpr ⟨(orDefault_defaultValue _).symm, hmember⟩

theorem DefaultFits.settle (h : F.DefaultFits) (next : Nat) : (F.settle next).1.DefaultFits := by
  cases F with
  | optional inner d =>
    refine ⟨h.1, fun hd hinner ↦ read_settle (h.2 ?_ hinner) next⟩
    rwa [← Value.isNullish_settle d next]
  | _ => exact h

/-! ## Declarations -/

/-- The type of a literal has the literal for its default. -/
theorem defaultFits_of_literal (h : (FieldSpec.literal v).resolve = some F) : F.DefaultFits := by
  cases v with
  | undefined | null => cases h
  | record r =>
    obtain rfl := Option.some.inj h
    intro s hs
    obtain rfl := Option.some.inj hs
    exact r.isInstanceOf_type
  | _ =>
    obtain rfl := Option.some.inj h
    trivial

theorem defaultFits_of_optionalOf {spec : FieldSpec}
    (hspec : ∀ inner, spec.resolve = some inner → inner.DefaultFits)
    (h : optionalOf spec d = .ok F) : F.DefaultFits := by
  obtain ⟨inner, d', hinner, -, rfl, hnullish, hread⟩ := optionalOf_eq_ok_iff.mp h
  refine ⟨hspec inner hinner, fun hd' hstrict ↦ ?_⟩
  cases hd : d.isNullish with
  | false => exact read_of_read hstrict (hread hd)
  | true =>
    -- A default that was not given is taken over, and the only other nullish one is null.
    have hdefault := hnullish hd
    cases d with
    | undefined =>
      obtain rfl : d' = inner.defaultValue := hdefault
      refine (hspec inner hinner).read_defaultValue hstrict ?_
      intro hundefined
      rw [hundefined] at hd'
      cases hd'
    | null =>
      obtain rfl : d' = .null := hdefault
      cases hd'
    | _ => cases hd

theorem defaultFits_of_enumOf {members : List Value} (h : enumOf members d = .ok F) :
    F.DefaultFits := by
  obtain ⟨-, hmember, rfl⟩ := enumOf_eq_ok_iff.mp h
  exact hmember

theorem defaultFits_of_enumOfList {members : Value} (h : enumOfList members d = .ok F) :
    F.DefaultFits := by
  cases members with
  | list items => exact defaultFits_of_enumOf h
  | _ => cases h

theorem defaultFits_of_unionOf {tag : String} {branches : List (String × FieldSpec)}
    {fallback : Option FieldSpec} (h : unionOf tag branches fallback = .ok F) : F.DefaultFits := by
  obtain ⟨types, fallbackType, rfl, -⟩ := exists_union_of_unionOf h
  trivial

end FieldType

/-! ## Parts -/

namespace Part

/-- In the schema of a record type every default fits. -/
def SchemaFits : Part → Prop
  | recordType T => ∀ f ∈ T.schema, f.2.DefaultFits
  | _ => True

instance : Storageless SchemaFits where
  flat _ := trivial
  list _ := trivial
  map _ := trivial
  record _ := trivial
  fieldType _ := trivial
  put _ _ _ := trivial
  build _ := trivial
  set _ _ := trivial
  toDraft _ := trivial
  commit _ := trivial
  settleEntries _ _ := trivial
  settle _ _ := trivial

/-- A field type occurs directly in a part only as one of a schema or as the inner type of an
optional. -/
theorem fieldType_mem_direct {F : FieldType} {q : Part} (h : fieldType F ∈ q.direct) :
    (∃ T : RecordType, q = recordType T ∧ ∃ f ∈ T.schema, f.2 = F) ∨
      ∃ d, q = fieldType (.optional F d) := by
  cases q with
  | value v =>
    cases v with
    | list | map | record => simp [direct, nested, attached] at h
    | _ => cases h
  | record r => simp [direct, nested, attached] at h
  | recordType T =>
    rw [direct_recordType, List.mem_append] at h
    rcases h with h | h
    · obtain ⟨f, hf, heq⟩ := List.mem_map.mp h
      exact Or.inl ⟨T, rfl, f, hf, fieldType.inj heq⟩
    · simp at h
  | fieldType G =>
    cases G with
    | optional inner d =>
      obtain rfl : F = inner := by simpa [direct_fieldType_optional] using h
      exact Or.inr ⟨d, rfl⟩
    | _ => simp [direct, nested, attached] at h

/-- **Where the defaults of all schemas fit**, those of all field types do, if this is true of the
part itself. -/
theorem defaultFits_of_within {F : FieldType} {q : Part} (hschema : q.Throughout SchemaFits)
    (hq : ∀ G, q = fieldType G → G.DefaultFits) (h : (fieldType F).Within q) : F.DefaultFits := by
  -- The induction goes up from the field type. It may pass any number of optionals.
  suffices hup : ∀ p : Part, p.Within q → ∀ G, p = fieldType G → G.DefaultFits from hup _ h F rfl
  intro p hp
  induction hp using Relation.ReflTransGen.head_induction_on with
  | refl => exact hq
  | @head p c hpc hcq ih =>
    rintro G rfl
    rcases fieldType_mem_direct hpc with ⟨T, rfl, f, hf, rfl⟩ | ⟨d, rfl⟩
    · exact hschema _ hcq f hf
    · exact (ih _ rfl).1

end Part

namespace Session

variable {s : Session} {c : Command} {F : FieldType}

/-- The defaults of all field types that the session knows fit. -/
structure DefaultsFit (s : Session) : Prop where
  schemas : s.Everywhere SchemaFits
  fieldTypes : ∀ e ∈ s.fieldTypes, e.2.DefaultFits

/-! ## Steps -/

theorem DefaultsFit.of_evalSpec (hs : s.DefaultsFit) {t : SpecTerm} {spec : FieldSpec}
    (hspec : s.evalSpec t = .ok spec) (hF : spec.resolve = some F) : F.DefaultFits := by
  cases t with
  | any | bool | num | str =>
    obtain rfl := Except.ok.inj hspec
    obtain rfl := Option.some.inj hF
    trivial
  | literal t =>
    obtain ⟨v, -, rfl⟩ := map_eq_ok_iff.mp hspec
    exact FieldType.defaultFits_of_literal hF
  | recordType name =>
    obtain ⟨T, -, rfl⟩ := map_eq_ok_iff.mp hspec
    obtain rfl := Option.some.inj hF
    intro r hr
    cases hr
  | fieldType name =>
    obtain ⟨G, hG, rfl⟩ := map_eq_ok_iff.mp hspec
    obtain rfl := Option.some.inj hF
    exact hs.fieldTypes _ (mem_of_find hG)

theorem DefaultsFit.of_evalSpecs (hs : s.DefaultsFit) {ts : List (String × SpecTerm)}
    {es : List (String × FieldSpec)} (hes : s.evalSpecs ts = .ok es) {e : String × FieldSpec}
    (he : e ∈ es) (hF : e.2.resolve = some F) : F.DefaultFits := by
  induction ts generalizing es with
  | nil =>
    cases hes
    cases he
  | cons t rest ih =>
    obtain ⟨key, t⟩ := t
    rw [evalSpecs] at hes
    split at hes
    · cases hes
    · rename_i hspec
      obtain ⟨more, hmore, rfl⟩ := map_eq_ok_iff.mp hes
      rcases List.mem_cons.mp he with rfl | he
      · exact hs.of_evalSpec hspec hF
      · exact ih hmore he

theorem DefaultsFit.of_resolveFields (hs : s.DefaultsFit) {ts : List (String × SpecTerm)}
    {es : Entries FieldSpec} {schema : List (String × FieldType)} (hes : s.evalFields ts = .ok es)
    (hschema : resolveFields es = .ok schema) : ∀ f ∈ schema, f.2.DefaultFits := by
  obtain ⟨specs, hspecs, rfl⟩ := map_eq_ok_iff.mp hes
  intro f hf
  obtain ⟨e, he, hF⟩ := exists_resolve_of_mem_resolveFields hschema hf
  exact hs.of_evalSpecs hspecs (Entries.mem_ofList he) hF

theorem DefaultsFit.of_declares (hs : s.DefaultsFit) {T : RecordType} (h : s.Declares c T) :
    SchemaFits (.recordType T) := by
  have hextend {base : RecordType} {ts es id label} (hbase : SchemaFits (.recordType base))
      (hes : s.evalFields ts = .ok es) (h : base.extend id es label = .ok T) :
      SchemaFits (.recordType T) := by
    obtain ⟨-, added, hadded, rfl⟩ := RecordType.extend_eq_ok_iff.mp h
    intro f hf
    rcases Entries.mem_putAll hf with hf | hf
    · exact hbase f hf
    · exact hs.of_resolveFields hes hadded f hf
  cases h with
  | declare hes h =>
    obtain ⟨schema, hschema, rfl⟩ := map_eq_ok_iff.mp h
    exact hs.of_resolveFields hes hschema
  | extend hbase hes h => exact hextend (hs.schemas.of_type hbase).self hes h
  | extendSpec hspec hes h =>
    obtain ⟨base, hbase, h⟩ := RecordType.exists_extend_of_extendSpec h
    exact hextend (throughout_of_recordType? (hs.schemas.of_evalSpec hspec) hbase).self hes h
  | relabel hbase => exact (hs.schemas.of_type hbase).self
  | derive _ hes hschema => exact hs.of_resolveFields hes hschema

theorem DefaultsFit.of_describes (hs : s.DefaultsFit) (h : s.Describes c F) : F.DefaultFits := by
  cases h with
  | resolve hF =>
    obtain ⟨spec, hspec, hF⟩ := map_eq_ok_iff.mp hF
    exact hs.of_evalSpec hspec hF
  | optionalOf hspec _ hF =>
    exact FieldType.defaultFits_of_optionalOf (fun _ hinner ↦ hs.of_evalSpec hspec hinner) hF
  | enumOf _ _ hF => exact FieldType.defaultFits_of_enumOf hF
  | enumOfList _ _ hF => exact FieldType.defaultFits_of_enumOfList hF
  | unionOf _ _ hF => exact FieldType.defaultFits_of_unionOf hF

theorem DefaultsFit.of_performs (hs : s.DefaultsFit) {out : Session × Outcome}
    (h : s.Performs c out) :
    out.1.fieldTypes = s.fieldTypes ∧ ∀ G, out.2 = .fieldType G → G.DefaultFits := by
  cases h with
  | describes h =>
    refine ⟨rfl, fun G hG ↦ ?_⟩
    obtain rfl := Outcome.fieldType.inj hG
    exact (hs.of_describes h).settle _
  | declares | yields | rewrites | nothing => exact ⟨rfl, fun G hG ↦ nomatch hG⟩

/-- **A step keeps the defaults fitting**, of what is bound and of what it gives. -/
theorem DefaultsFit.of_run {s' : Session} {step : Step} {out : Outcome} (hs : s.DefaultsFit)
    (h : s.run step = .ok (s', out)) :
    s'.DefaultsFit ∧ ∀ q ∈ out.parts, q.Throughout SchemaFits ∧
      ∀ G, q = .fieldType G → G.DefaultFits := by
  obtain ⟨hschemas, hout⟩ := hs.schemas.of_run h fun T hT _ ↦ hs.of_declares hT
  obtain ⟨s₁, hperform, hbinding⟩ := perform_of_run h
  obtain ⟨htable, hself⟩ := hs.of_performs (performs_of_perform hperform)
  refine ⟨⟨hschemas, ?_⟩, fun q hq ↦ ⟨hout q hq, ?_⟩⟩
  · have hs₁ : ∀ e ∈ s₁.fieldTypes, e.2.DefaultFits := htable ▸ hs.fieldTypes
    rcases hbinding with ⟨-, rfl⟩ | ⟨name, -, rfl⟩
    · exact hs₁
    · cases out with
      | fieldType F =>
        intro e he
        rcases Entries.mem_put he with he | rfl
        · exact hs₁ e he
        · exact hself F rfl
      | _ => exact hs₁
  · rintro G rfl
    cases out with
    | fieldType F =>
      obtain rfl := Part.fieldType.inj (List.mem_singleton.mp hq)
      exact hself G rfl
    | recordType | value => cases List.mem_singleton.mp hq
    | nothing => cases hq

theorem defaultsFit_script (steps : List Step) : (script steps).DefaultsFit :=
  script_induction ⟨everywhere_empty, List.forall_mem_nil _⟩ (fun hs hrun ↦ (hs.of_run hrun).1)
    steps

/-! ## Reachable field types -/

/-- **Every reachable default fits.** -/
theorem defaultFits_of_reachable (h : Reachable (.fieldType F)) : F.DefaultFits := by
  cases h with
  | @bound steps q hq hp =>
    have hs := defaultsFit_script steps
    refine defaultFits_of_within (hs.schemas.of_mem_parts hq) ?_ hp
    rintro G rfl
    obtain ⟨e, he, heq⟩ : ∃ e ∈ (script steps).fieldTypes, Part.fieldType e.2 = .fieldType G := by
      simpa [parts] using hq
    exact Part.fieldType.inj heq ▸ hs.fieldTypes e he
  | @given steps step s out q hrun hq hp =>
    obtain ⟨hschema, hself⟩ := ((defaultsFit_script steps).of_run hrun).2 q hq
    exact defaultFits_of_within hschema hself hp

theorem defaultFits_of_resolve {spec : FieldSpec} (hspec : Reachable spec.part)
    (h : spec.resolve = some F) : F.DefaultFits := by
  cases spec with
  | type G =>
    obtain rfl := Option.some.inj h
    exact defaultFits_of_reachable hspec
  | literal v => exact FieldType.defaultFits_of_literal h

theorem reachable_of_field? {r : Record} {key : String} (hr : Reachable (.record r))
    (hF : r.type.field? key = some F) : Reachable (.fieldType F) := by
  have htype : Part.recordType r.type ∈ (Part.record r).direct := by
    rw [direct_record]
    exact List.mem_append_right _ (List.mem_singleton_self _)
  have hfield : Part.fieldType F ∈ (Part.recordType r.type).direct := by
    rw [direct_recordType]
    exact List.mem_append_left _ (List.mem_map.mpr ⟨(key, F), Entries.mem_of_get?_eq_some hF, rfl⟩)
  exact hr.of_within ((within_of_mem_direct hfield).trans (within_of_mem_direct htype))

end Session

end Schemata
