import Schemata.Proofs.Sessions

/-!
# Undeclared data

A record is built from a map by looking up the keys that its type declares. What else is in the map,
and in which order its entries are, should have no influence on whether there is a record and on
what is in it. The same holds of the maps further down, with one complication: which keys are
declared there depends on the record type that reads the map, and a union selects this type by the
map's own tag.

`FieldType.SameDeclared` relates two values that differ in undeclared data alone. It follows the way
in which a field type reads them: maps are compared by what the record type that reads them would
look up, and all other values have to be equal, maps under fields that take them as they are
included. This is enough for the same result, down to equality
(`FieldType.SameDeclared.read_eq_ok_iff`). The errors are another matter, since their texts show the
value as a whole.
-/

namespace Schemata

/-! ## Values with the same declared data -/

/-- The record type that a union selects for a map, by the text of the map's tag. -/
def RecordType.selectFor? (tag : String) (branches : Entries RecordType)
    (fallback : Option RecordType) (m : Entries Value) : Option RecordType :=
  (Entries.get? m tag).bind fun t ↦ select? branches fallback t.display

/-- The two values are equal, or they are maps that one record type reads, with the same declared
data under each of its keys; an absent entry counts as undefined. The record type is that of a
record field, or the one that a union selects. If the union selects none, nothing is asked of the
maps. An optional looks at values as its inner type does. -/
inductive FieldType.SameDeclared : FieldType → Value → Value → Prop where
  | refl (F : FieldType) (v : Value) : F.SameDeclared v v
  | record {T : RecordType} {d : Option Record} {m m' : Entries Value} :
    (∀ f ∈ T.schema, f.2.SameDeclared ((Value.map m).getD f.1) ((Value.map m').getD f.1)) →
      (FieldType.record T d).SameDeclared (.map m) (.map m')
  | optional {inner : FieldType} {d v w : Value} : inner.SameDeclared v w →
    (FieldType.optional inner d).SameDeclared v w
  | union {tag : String} {branches : List (String × RecordType)} {fallback : Option RecordType}
    {m m' : Entries Value} :
    RecordType.selectFor? tag branches fallback m = RecordType.selectFor? tag branches fallback m' →
      (∀ T, RecordType.selectFor? tag branches fallback m = some T →
        ∀ f ∈ T.schema, f.2.SameDeclared ((Value.map m).getD f.1) ((Value.map m').getD f.1)) →
        (FieldType.union tag branches fallback).SameDeclared (.map m) (.map m')

/-- The two maps have the same declared data under each key of the record type. -/
def RecordType.SameDeclared (T : RecordType) (m m' : Entries Value) : Prop :=
  ∀ f ∈ T.schema, f.2.SameDeclared ((Value.map m).getD f.1) ((Value.map m').getD f.1)

/-- Maps have the same declared data if their declared entries are the same, in any order. -/
theorem RecordType.sameDeclared_of_perm {T : RecordType} {m m' : Entries Value}
    (hm : (Entries.keys m).Nodup) (hm' : (Entries.keys m').Nodup)
    (h : (m.filter fun e ↦ (T.field? e.1).isSome).Perm
      (m'.filter fun e ↦ (T.field? e.1).isSome)) : T.SameDeclared m m' := by
  intro f hf
  have hdeclared : (T.field? f.1).isSome = true :=
    Entries.get?_isSome_iff.mpr (List.mem_map_of_mem hf)
  have hget : Entries.get? m f.1 = Entries.get? m' f.1 := by
    refine Option.ext fun v ↦ ?_
    have hmem : (f.1, v) ∈ m ↔ (f.1, v) ∈ m' := by
      have hperm := h.mem_iff (a := (f.1, v))
      rwa [List.mem_filter, List.mem_filter, and_iff_left hdeclared,
        and_iff_left hdeclared] at hperm
    constructor
    · exact fun hv ↦ Entries.get?_eq_some_of_mem hm'
        (hmem.mp (Entries.mem_of_get?_eq_some hv))
    · exact fun hv ↦ Entries.get?_eq_some_of_mem hm
        (hmem.mpr (Entries.mem_of_get?_eq_some hv))
  rw [Value.getD, Value.getD, Value.get?, Value.get?, hget]
  exact .refl _ _

/-! ## The same result -/

namespace RecordType

variable {T : RecordType} {m m' : Entries Value}

theorem convert_map_eq_ok_iff {w : Value} :
    T.convert (.map m) = .ok w ↔ ∃ r, T.build (.map m) = .ok r ∧ w = .record r := by
  rw [convert_eq_ok_iff]
  exact Iff.rfl

theorem build_eq_ok_iff_of_forall {v w : Value}
    (h : ∀ f ∈ T.schema, ∀ x,
      f.2.readField f.1 (v.getD f.1) = .ok x ↔ f.2.readField f.1 (w.getD f.1) = .ok x)
    (r : Record) : T.build v = .ok r ↔ T.build w = .ok r := by
  simp only [build_eq_ok_iff, readFields_eq_ok_iff_of_forall h]

end RecordType

theorem FieldType.read_union_map_eq_ok_iff {tag : String} {branches : List (String × RecordType)}
    {fallback : Option RecordType} {m : Entries Value} {x : Value} :
    (union tag branches fallback).read (.map m) = .ok x ↔
      ∃ T, RecordType.selectFor? tag branches fallback m = some T ∧
        T.convert (.map m) = .ok x := by
  simp only [read_union_eq_ok_iff, Value.get?, RecordType.selectFor?, Option.bind_eq_some_iff]
  constructor
  · rintro ⟨t, T, ht, hT, hx⟩
    exact ⟨T, ⟨t, ht, hT⟩, hx⟩
  · rintro ⟨T, ⟨t, ht, hT⟩, hx⟩
    exact ⟨t, T, ht, hT, hx⟩

namespace FieldType.SameDeclared

variable {F : FieldType} {v w : Value}

theorem eq_or_maps (h : F.SameDeclared v w) : v = w ∨ ∃ m m', v = .map m ∧ w = .map m' := by
  induction h with
  | refl => exact Or.inl rfl
  | record | union => exact Or.inr ⟨_, _, rfl, rfl⟩
  | optional _ ih => exact ih

theorem readField_eq_ok_iff_of_read (h : F.SameDeclared v w)
    (hread : ∀ x, F.read v = .ok x ↔ F.read w = .ok x) (key : String) (x : Value) :
    F.readField key v = .ok x ↔ F.readField key w = .ok x := by
  rcases h.eq_or_maps with rfl | ⟨m, m', rfl, rfl⟩
  · rfl
  · rw [FieldType.readField_eq_ok_iff, FieldType.readField_eq_ok_iff]
    exact hread x

/-- **Reading disregards undeclared data.** -/
theorem read_eq_ok_iff (h : F.SameDeclared v w) (x : Value) :
    F.read v = .ok x ↔ F.read w = .ok x := by
  induction h generalizing x with
  | refl => rfl
  | @record T d m m' hfields ih =>
    have hbuild := RecordType.build_eq_ok_iff_of_forall fun f hf ↦
      (hfields f hf).readField_eq_ok_iff_of_read (ih f hf) f.1
    rw [read_record_eq_ok_iff, read_record_eq_ok_iff, RecordType.convert_map_eq_ok_iff,
      RecordType.convert_map_eq_ok_iff]
    simp only [hbuild]
    exact Iff.rfl
  | @optional inner d v w h ih =>
    rcases h.eq_or_maps with rfl | ⟨m, m', rfl, rfl⟩
    · rfl
    · rw [read_optional_eq_ok_iff, read_optional_eq_ok_iff]
      exact ih x
  | @union tag branches fallback m m' hselect hfields ih =>
    -- One record type is selected for both, and it builds the same from both.
    rw [read_union_map_eq_ok_iff, read_union_map_eq_ok_iff, ← hselect]
    refine exists_congr fun T ↦ and_congr_right fun hT ↦ ?_
    have hbuild := RecordType.build_eq_ok_iff_of_forall fun f hf ↦
      (hfields T hT f hf).readField_eq_ok_iff_of_read (ih T hT f hf) f.1
    simp only [RecordType.convert_map_eq_ok_iff, hbuild]

end FieldType.SameDeclared

/-! ## Building -/

/-- **Undeclared data never influences what is built.** Let two maps have the same declared data for
a record type, at every depth to which record types read them. Then the record type builds a record
from both or from neither. The two records are equal, as long as the new records in them have no
numbers, so they have the keys of the record type, and the same contents whichever numbers they
get. -/
theorem construct_eq_of_sameDeclared {T : RecordType} {m m' : Entries Value}
    (h : T.SameDeclared m m') :
    ((∃ r, T.construct (.map m) = .ok r) ↔ ∃ r', T.construct (.map m') = .ok r') ∧
      ∀ r r', T.construct (.map m) = .ok r → T.construct (.map m') = .ok r' →
        r = r' ∧ Entries.keys r.fields = Entries.keys T.schema ∧
          ∀ i j, (r.settle i).1.contents = (r'.settle j).1.contents := by
  have hbuild : ∀ r, T.construct (.map m) = .ok r ↔ T.construct (.map m') = .ok r :=
    RecordType.build_eq_ok_iff_of_forall fun f hf ↦
      (h f hf).readField_eq_ok_iff_of_read (h f hf).read_eq_ok_iff f.1
  refine ⟨exists_congr hbuild, fun r r' hr hr' ↦ ?_⟩
  obtain rfl : r = r' := Except.ok.inj (((hbuild r).mp hr).symm.trans hr')
  obtain ⟨fields, hfields, rfl⟩ := RecordType.build_eq_ok_iff.mp hr
  refine ⟨rfl, keys_of_readFields hfields, fun i j ↦ ?_⟩
  rw [Record.contents_settle, Record.contents_settle]

/-! ## Remarks in a drawing -/

namespace Session

/-- A circle with a remark in it, in a drawing with an author. -/
def remarked : Entries Value :=
  [("shape", .map [("remark", .list [.null]), ("kind", .str "circle")]), ("author", .str "Ada")]

/-- The circle with another key after its own, and the drawing with another one before. -/
def hurried : Entries Value :=
  [("done", .bool false), ("shape", .map [("kind", .str "circle"), ("remark", .undefined)])]

theorem sameDeclared_drawing : drawingType.SameDeclared remarked hurried := by
  have hcircle : circleType.SameDeclared [("remark", .list [.null]), ("kind", .str "circle")]
      [("kind", .str "circle"), ("remark", .undefined)] :=
    RecordType.sameDeclared_of_perm (by decide) (by decide) (List.Perm.refl _)
  refine List.forall_mem_cons.mpr ⟨.refl _ _, List.forall_mem_singleton.mpr (.union rfl ?_)⟩
  intro T hT
  obtain rfl : circleType = T := Option.some.inj hT
  exact hcircle

/-- The remarks, the author and the order of entries leave no trace in the drawing. -/
theorem construct_eq_of_sameDeclared_drawing :
    ∃ r, drawingType.construct (.map remarked) = .ok r ∧
      drawingType.construct (.map hurried) = .ok r ∧
        Entries.keys r.fields = ["title", "shape"] := by
  obtain ⟨hsucceed, hequal⟩ := construct_eq_of_sameDeclared sameDeclared_drawing
  obtain ⟨r, hr⟩ : ∃ r, drawingType.construct (.map remarked) = .ok r := ⟨_, rfl⟩
  obtain ⟨r', hr'⟩ := hsucceed.mp ⟨r, hr⟩
  obtain ⟨rfl, hkeys, -⟩ := hequal r r' hr hr'
  exact ⟨r, hr, hr', hkeys⟩

end Session

end Schemata
