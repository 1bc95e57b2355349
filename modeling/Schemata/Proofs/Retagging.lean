import Schemata.Proofs.LostWrites

/-!
# Writing the tag of a union

The field of a union holds a record, and the tag of this record says which of the union's types it
was read as. A nested write to the tag changes its mind. On the way down it finds the record, or
nothing; it leaves something there that has the new tag and otherwise what was there before
(`Value.Retagged`). On the way back the union reads this, and since reading goes by the tag, it
selects the type for the new one.

So the write fails if there is no such type. Otherwise, if it succeeds, the field holds an instance
of it: what was there with the new tag, if that is an instance already, and a record of exactly this
type built from it if not (`Session.reselects_of_setIn_tag`). It makes no difference that the type
of the record in the field may declare the tag in a way of its own. A field type that reads a text
at all keeps it (`FieldType.eq_of_read_of_flat`).
-/

namespace Schemata

open Schemata.Part

/-! ## Reading through optionals -/

namespace FieldType

variable {F : FieldType} {v w : Value}

theorem read_eq_ok_iff_core (hv : v.isNullish = false) :
    F.read v = .ok w ↔ F.core.read v = .ok w := by
  induction F using FieldType.induction with
  | optional inner d ih =>
    rw [read_optional_eq_ok_iff, orDefault_of_not_nullish hv, hv, core]
    exact ih
  | _ => rfl

theorem throughout_core {ok : Part → Prop} (hF : (fieldType F).Throughout ok) :
    (fieldType F.core).Throughout ok := by
  induction F using FieldType.induction with
  | optional inner d ih => exact ih (throughout_fieldType_optional.mp hF).2.1
  | _ => exact hF

theorem eq_of_read_of_flat (hflat : v.isObject = false) (hv : v.isNullish = false)
    (h : F.read v = .ok w) : w = v := by
  induction F using FieldType.induction with
  | any => exact read_any_eq_ok_iff.mp h
  | bool d => exact (read_bool_eq_ok_iff.mp h).1
  | num d => exact (read_num_eq_ok_iff.mp h).1
  | str d => exact (read_str_eq_ok_iff.mp h).1
  | record T d =>
    have hsource := (read_record_eq_ok_iff.mp h).1
    cases v with
    | list | map | record => cases hflat
    | _ => rcases hsource with hsource | hsource <;> cases hsource
  | optional inner d ih =>
    rw [read_optional_eq_ok_iff, orDefault_of_not_nullish hv, hv] at h
    exact ih h
  | enum members d => rw [(read_enum_eq_ok_iff.mp h).1, orDefault_of_not_nullish hv]
  | union tag branches fallback =>
    rw [read_union, hflat] at h
    cases h

end FieldType

/-! ## A value with another tag -/

namespace Value

/-- The value `w` has the text under the key `tag`, and otherwise it is what `v` is. -/
structure Retagged (v : Value) (tag text : String) (w : Value) : Prop where
  isNullish : w.isNullish = false
  get?_tag : w.get? tag = some (.str text)
  getD : ∀ key, tag ≠ key → w.getD key = v.getD key
  isInstanceOf : ∀ T, w.isInstanceOf T = v.isInstanceOf T

/-- **Writing a text below a value** gives it this text as its tag. -/
theorem retagged_of_setIn {v w : Value} {whole : List String} {tag text : String}
    (h : v.setIn whole [tag] (.str text) = .ok w) : v.Retagged tag text w := by
  by_cases hv : v.isNullish = true
  · -- Where there was nothing there is a map with the tag alone.
    rw [setIn_of_isNullish hv, Except.ok.injEq] at h
    subst h
    refine ⟨rfl, get?_nest tag [] (.str text), fun key hne ↦ ?_, fun T ↦ ?_⟩
    · have hget : (nest [tag] (.str text)).get? key = none := if_neg hne
      rw [getD, hget]
      cases v with
      | undefined | null => rfl
      | _ => cases hv
    · cases v with
      | undefined | null => rfl
      | _ => cases hv
  · obtain ⟨hlike, hkept, below, z, y, hz, hputs, hy⟩ :=
      exists_of_setIn_cons (Bool.eq_false_iff.mpr hv) h
    obtain rfl : .str text = z := Except.ok.inj hz
    refine ⟨hlike.isNullish_right, ?_, fun key hne ↦ ?_, fun T ↦ hlike.isInstanceOf T⟩
    · have htext : y = .str text := by
        cases v with
        | map entries => exact hputs
        | record s =>
          obtain ⟨F, -, hread⟩ := hputs
          exact FieldType.eq_of_read_of_flat rfl rfl (FieldType.readField_eq_ok_iff.mp hread)
        | _ => exact hputs.elim
      rw [hy, htext]
    · rw [getD, getD, hkept key hne]

end Value

namespace FieldType

variable {tag text : String} {branches : List (String × RecordType)}
  {fallback : Option RecordType} {F : FieldType} {v w z : Value}

theorem read_retagged_eq_ok_iff (hF : F.core = .union tag branches fallback)
    (hw : v.Retagged tag text w) :
    F.read w = .ok z ↔
      ∃ T, RecordType.select? branches fallback text = some T ∧ T.convert w = .ok z := by
  rw [read_eq_ok_iff_core hw.isNullish, hF, read_union_eq_ok_iff]
  constructor
  · rintro ⟨t, T, ht, hT, hz⟩
    obtain rfl : .str text = t := Option.some.inj (hw.get?_tag.symm.trans ht)
    exact ⟨T, hT, hz⟩
  · rintro ⟨T, hT, hz⟩
    exact ⟨.str text, T, hw.get?_tag, hT, hz⟩

end FieldType

namespace RecordType

variable {T : RecordType} {tag text : String} {v w z : Value}

theorem get?_tag_of_convert {d : Option String} (hT : T.field? tag = some (.str d))
    (hw : v.Retagged tag text w) (h : T.convert w = .ok z) : z.get? tag = some (.str text) := by
  rw [convert_eq_ok_iff] at h
  split at h
  · rw [h, hw.get?_tag]
  · obtain ⟨r, hr, rfl⟩ := h
    obtain ⟨s, hs, hget | ⟨hundefined, -⟩⟩ := FieldType.get?_tag_of_build hT hr
    · rw [hw.get?_tag] at hget
      exact hs.trans hget.symm
    · rw [Value.getD, hw.get?_tag] at hundefined
      cases hundefined

/-- What is converted and was no instance is built anew, from the other fields as they were. -/
theorem exists_build_of_convert (hinst : v.isInstanceOf T = false) (hw : v.Retagged tag text w)
    (h : T.convert w = .ok z) : ∃ x, z = .record x ∧ x.type = T ∧
      ∀ key G, T.field? key = some G → tag ≠ key →
        ∃ y, G.readField key (v.getD key) = .ok y ∧ x.get? key = some y := by
  rw [convert_eq_ok_iff, hw.isInstanceOf, hinst] at h
  obtain ⟨x, hx, rfl⟩ := h
  refine ⟨x, rfl, type_of_build hx, fun key G hG hne ↦ ?_⟩
  obtain ⟨fields, hfields, rfl⟩ := build_eq_ok_iff.mp hx
  obtain ⟨y, hy, hget⟩ := get?_readFields hfields hG
  rw [hw.getD key hne] at hy
  exact ⟨y, hy, hget⟩

end RecordType

variable {r r' : Record} {key tag text : String} {branches : List (String × RecordType)}
  {fallback : Option RecordType} {F : FieldType}

theorem Record.exists_of_setIn_tag (hF : r.type.field? key = some F)
    (hunion : F.core = .union tag branches fallback)
    (h : r.setIn [key, tag] (.str text) = .ok r') :
    ∃ w T z, (r.getD key).Retagged tag text w ∧
      RecordType.select? branches fallback text = some T ∧ T.convert w = .ok z ∧
        r'.get? key = some z ∧ ∀ other, key ≠ other → r'.get? other = r.get? other := by
  rw [setIn_of_field? hF] at h
  obtain ⟨w, hw, hset⟩ := bind_eq_ok_iff.mp h
  have hretagged := Value.retagged_of_setIn hw
  obtain ⟨G, z, hG, hz, hr'⟩ := set_eq_ok_iff.mp hset
  obtain rfl : F = G := Option.some.inj (hF.symm.trans hG)
  rw [FieldType.readField_eq_ok_iff, FieldType.orDefault_of_not_nullish hretagged.isNullish,
    FieldType.read_retagged_eq_ok_iff hunion hretagged] at hz
  obtain ⟨T, hT, hconvert⟩ := hz
  refine ⟨w, T, z, hretagged, hT, hconvert, ?_, fun other hne ↦ get?_of_set hset hne⟩
  rw [hr']
  exact Entries.get?_put_self _ _ _

namespace Session

/-- **Writing the tag selects again.** Let a reachable record have a field that is a union, perhaps
inside optionals. A text that selects no type cannot be written to the tag. If the write of a text
succeeds, the field holds an instance of the type that the text selects, the text is its tag, and
the other fields are what they were. If what the field held before is no instance of this type (and
its tag makes no difference to that), the record in the field has exactly this type, and each of its
fields other than the tag has what its type reads from what was there, or from undefined if nothing
was there. -/
theorem reselects_of_setIn_tag (hr : Reachable (.record r)) (hF : r.type.field? key = some F)
    (hunion : F.core = .union tag branches fallback) (text : String) :
    (RecordType.select? branches fallback text = none →
      ∃ e, r.setIn [key, tag] (.str text) = .error e) ∧
    ∀ r', r.setIn [key, tag] (.str text) = .ok r' →
      ∃ T x, RecordType.select? branches fallback text = some T ∧
        r'.get? key = some (.record x) ∧ x.isInstanceOf T = true ∧
        r'.getIn? [key, tag] = some (.str text) ∧
        (∀ other, key ≠ other → r'.get? other = r.get? other) ∧
        ((r.getD key).isInstanceOf T = false → x.type = T ∧
          ∀ other G, T.field? other = some G → tag ≠ other →
            ∃ y, G.readField other ((r.getD key).getD other) = .ok y ∧ x.get? other = some y) := by
  have htags := (throughout_record.mp (tagDeclared_of_reachable hr)).2.1
  have hcore : (FieldType.union tag branches fallback).TagDeclared := by
    rw [← hunion]
    exact (FieldType.throughout_core (throughout_of_field? htags hF)).self
  constructor
  · intro hnone
    rcases hset : r.setIn [key, tag] (.str text) with e | r'
    · exact ⟨e, rfl⟩
    · obtain ⟨w, T, z, -, hT, -⟩ := Record.exists_of_setIn_tag hF hunion hset
      rw [hnone] at hT
      cases hT
  · intro r' hset
    obtain ⟨w, T, z, hw, hT, hz, hget, hothers⟩ := Record.exists_of_setIn_tag hF hunion hset
    obtain ⟨d, hd⟩ := hcore T (RecordType.mem_candidates_of_select? hT)
    have hinst := RecordType.isInstanceOf_of_convert hz
    have htag := RecordType.get?_tag_of_convert hd hw hz
    obtain ⟨x, rfl⟩ := Value.exists_record_of_isInstanceOf hinst
    refine ⟨T, x, hT, hget, hinst, ?_, hothers, fun hnot ↦ ?_⟩
    · rw [Record.getIn?, hget, Option.bind_some, Value.getIn?_cons_of_get? htag]
      rfl
    · obtain ⟨y, hy, hbuilt⟩ := RecordType.exists_build_of_convert hnot hw hz
      obtain rfl := Value.record.inj hy
      exact hbuilt

/-- A picture of a circle that could be a square. -/
def pictureSteps : List Step :=
  [⟨.declare [("kind", .str), ("filled", .literal (.bool false))] (some "Circle"), some "Circle"⟩,
   ⟨.declare [("kind", .str), ("corners", .literal (.str "sharp")), ("filled", .bool)]
     (some "Square"), some "Square"⟩,
   ⟨.unionOf "kind" [("circle", .recordType "Circle"), ("square", .recordType "Square")] none,
     some "Shape"⟩,
   ⟨.optionalOf (.fieldType "Shape") .undefined, some "MaybeShape"⟩,
   ⟨.declare [("shape", .fieldType "MaybeShape")] (some "Picture"), some "Picture"⟩,
   ⟨.construct "Picture" (.map [("shape", .map [("kind", .str "circle")])]), some "picture"⟩]

def squareType : RecordType :=
  ⟨1, some "Square",
    [("kind", .str none), ("corners", .str (some "sharp")), ("filled", .bool none)], none,
    [("kind", .field "kind"), ("corners", .field "corners"), ("filled", .field "filled")]⟩

def maybeShape : FieldType :=
  .optional (.union "kind" [("circle", circleType), ("square", squareType)] none) .undefined

def picture : Record :=
  ⟨⟨2, some "Picture", [("shape", maybeShape)], none, [("shape", .field "shape")]⟩, some 3,
    [("shape", .record ⟨circleType, some 4, [("kind", .str "circle"), ("filled", .bool false)],
      false⟩)], false⟩

theorem record_picture : (script pictureSteps).record "picture" = .ok picture := rfl

/-- The circle becomes a square that is not filled either, and it does not become a triangle. -/
theorem reselects_of_setIn_tag_picture :
    (∃ r' x, picture.setIn ["shape", "kind"] (.str "square") = .ok r' ∧
      r'.get? "shape" = some (.record x) ∧ x.type = squareType ∧
      x.get? "filled" = some (.bool false)) ∧
    ∃ e, picture.setIn ["shape", "kind"] (.str "triangle") = .error e := by
  have hr := reachable_of_record record_picture
  have hF : picture.type.field? "shape" = some maybeShape := rfl
  constructor
  · obtain ⟨r', hr'⟩ : ∃ r', picture.setIn ["shape", "kind"] (.str "square") = .ok r' := ⟨_, rfl⟩
    obtain ⟨T, x, hT, hx, -, -, -, hbuilt⟩ := (reselects_of_setIn_tag hr hF rfl "square").2 r' hr'
    obtain rfl : squareType = T := Option.some.inj hT
    obtain ⟨htype, hfields⟩ := hbuilt rfl
    obtain ⟨y, hy, hfilled⟩ := hfields "filled" (.bool none) rfl (by decide)
    obtain rfl : .bool false = y := Except.ok.inj hy
    exact ⟨r', x, hr', hx, htype, hfilled⟩
  · exact (reselects_of_setIn_tag hr hF rfl "triangle").1 rfl

end Session

end Schemata
