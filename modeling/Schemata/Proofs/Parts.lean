import Mathlib.Logic.Relation
import Schemata.Proofs.Induction

/-!
# What occurs in a value or in a type

A record can hide anywhere: in a list, in a field of another record, in the default of an optional
that a schema mentions, among the members of an enumeration, in a type that such a record belongs
to. A *part* is a value, a record, a record type or a field type, and this file says which parts
occur in which.

There are two ways down from a part. Its *nested* parts are the pieces that reading goes through:
the items, entries and fields of a value, and the field types and record types by which a type is
declared. Its *attached* parts hang on to it beside those: the type of a record, the parent of a
record type, the defaults and members of a field type. `Part.Within` follows both, any number of
times, `Part.NestedIn` the nested ones alone.

A property of parts holds *throughout* a part if every part in it has the property. One equivalence
for each kind of part unfolds this by one step, so no proof has to follow a chain of parts.
-/

namespace Schemata

/-- A value, a record, a record type or a field type. -/
inductive Part where
  | value (v : Value)
  | record (r : Record)
  | recordType (T : RecordType)
  | fieldType (F : FieldType)

namespace Part

/-! ## One step down -/

/-- The pieces of a part that reading goes through. -/
def nested : Part → List Part
  | value (.list items) => items.map value
  | value (.map entries) => entries.map fun e ↦ value e.2
  | value (.record r) => [record r]
  | record r => r.fields.map fun e ↦ value e.2
  | recordType T => T.schema.map fun f ↦ fieldType f.2
  | fieldType (.record T _) => [recordType T]
  | fieldType (.optional inner _) => [fieldType inner]
  | fieldType (.union _ branches fallback) =>
    (RecordType.candidates branches fallback).map recordType
  | _ => []

/-- What hangs on to a part beside its nested parts. -/
def attached : Part → List Part
  | record r => [recordType r.type]
  | recordType T => T.parent.toList.map recordType
  | fieldType (.record _ d) => d.toList.map record
  | fieldType (.optional _ d) => [value d]
  | fieldType (.enum members d) => value d :: members.map value
  | _ => []

def direct (p : Part) : List Part := p.nested ++ p.attached

-- Each kind of part is looked through once, here. What is proved about all parts of one rewrites
-- with these and opens none of the three definitions again.
theorem direct_flat {v : Value} (hv : v.isObject = false) : (value v).direct = [] := by
  cases v with
  | list | map | record => cases hv
  | _ => rfl

theorem direct_list (items : List Value) : (value (.list items)).direct = items.map value :=
  List.append_nil _

theorem direct_map (entries : List (String × Value)) :
    (value (.map entries)).direct = entries.map fun e ↦ value e.2 :=
  List.append_nil _

theorem direct_value_record (r : Record) : (value (.record r)).direct = [record r] := rfl

theorem direct_record (r : Record) :
    (record r).direct = (r.fields.map fun e ↦ value e.2) ++ [recordType r.type] := rfl

theorem direct_recordType (T : RecordType) :
    (recordType T).direct =
      (T.schema.map fun f ↦ fieldType f.2) ++ T.parent.toList.map recordType := rfl

theorem direct_fieldType_record (T : RecordType) (d : Option Record) :
    (fieldType (.record T d)).direct = recordType T :: d.toList.map record := rfl

theorem direct_fieldType_optional (inner : FieldType) (d : Value) :
    (fieldType (.optional inner d)).direct = [fieldType inner, value d] := rfl

theorem direct_fieldType_enum (members : List Value) (d : Value) :
    (fieldType (.enum members d)).direct = value d :: members.map value := rfl

theorem direct_fieldType_union (tag : String) (branches : List (String × RecordType))
    (fallback : Option RecordType) :
    (fieldType (.union tag branches fallback)).direct =
      (RecordType.candidates branches fallback).map recordType :=
  List.append_nil _

/-! ## Any number of steps down -/

/-- `p` occurs anywhere in `q`. -/
def Within (p q : Part) : Prop := Relation.ReflTransGen (fun x y ↦ x ∈ y.direct) p q

/-- `p` occurs in `q` among the pieces that reading goes through. -/
def NestedIn (p q : Part) : Prop := Relation.ReflTransGen (fun x y ↦ x ∈ y.nested) p q

theorem Within.refl (p : Part) : p.Within p := Relation.ReflTransGen.refl

theorem Within.trans {p q s : Part} (h : p.Within q) (h' : q.Within s) : p.Within s :=
  Relation.ReflTransGen.trans h h'

theorem within_of_mem_direct {p q : Part} (h : p ∈ q.direct) : p.Within q :=
  Relation.ReflTransGen.single h

theorem NestedIn.refl (p : Part) : p.NestedIn p := Relation.ReflTransGen.refl

theorem NestedIn.trans {p q s : Part} (h : p.NestedIn q) (h' : q.NestedIn s) : p.NestedIn s :=
  Relation.ReflTransGen.trans h h'

theorem nestedIn_of_mem_nested {p q : Part} (h : p ∈ q.nested) : p.NestedIn q :=
  Relation.ReflTransGen.single h

theorem NestedIn.within {p q : Part} (h : p.NestedIn q) : p.Within q :=
  Relation.ReflTransGen.mono (fun _ _ hmem ↦ List.mem_append_left _ hmem) _ _ h

/-- A property of a part and of what is nested in its pieces is one of all that is nested in it. -/
theorem forall_nestedIn {ok : Part → Prop} {q : Part} (h : ok q)
    (hnested : ∀ c ∈ q.nested, ∀ p, NestedIn p c → ok p) : ∀ p, NestedIn p q → ok p := by
  intro p hp
  rcases Relation.ReflTransGen.cases_tail hp with rfl | ⟨c, hpc, hc⟩
  · exact h
  · exact hnested c hc p hpc

/-- A part within another is this one or within one that occurs in it directly. -/
theorem within_iff {p q : Part} : p.Within q ↔ p = q ∨ ∃ c ∈ q.direct, p.Within c := by
  rw [Within, Relation.ReflTransGen.cases_tail_iff, eq_comm]
  simp only [Within, and_comm]

theorem nestedIn_iff {p q : Part} : p.NestedIn q ↔ p = q ∨ ∃ c ∈ q.nested, p.NestedIn c := by
  rw [NestedIn, Relation.ReflTransGen.cases_tail_iff, eq_comm]
  simp only [NestedIn, and_comm]

/-! ## Properties of all parts -/

/-- Every part in `p` has the property. -/
def Throughout (ok : Part → Prop) (p : Part) : Prop := ∀ q, q.Within p → ok q

variable {ok : Part → Prop}

theorem Throughout.self {p : Part} (h : p.Throughout ok) : ok p := h p (Within.refl p)

/-- What holds throughout a part holds throughout each part within it. -/
theorem Throughout.of_within {p q : Part} (h : q.Throughout ok) (hp : p.Within q) :
    p.Throughout ok :=
  fun s hs ↦ h s (hs.trans hp)

theorem Throughout.imp {ok' : Part → Prop} {p : Part} (h : p.Throughout ok)
    (himp : ∀ q, ok q → ok' q) : p.Throughout ok' :=
  fun q hq ↦ himp q (h q hq)

/-- **What holds throughout a part** holds of the part itself and throughout those that occur in it
directly. The equations for the single kinds of parts come from this one. -/
theorem throughout_iff {p : Part} :
    p.Throughout ok ↔ ok p ∧ ∀ c ∈ p.direct, c.Throughout ok := by
  constructor
  · exact fun h ↦ ⟨h.self, fun c hc ↦ h.of_within (within_of_mem_direct hc)⟩
  · rintro ⟨hp, hdirect⟩ q hq
    rcases within_iff.mp hq with rfl | ⟨c, hc, hqc⟩
    · exact hp
    · exact hdirect c hc q hqc

/-! ### Values -/

theorem throughout_flat {v : Value} (hv : v.isObject = false) :
    (value v).Throughout ok ↔ ok (value v) := by
  rw [throughout_iff, direct_flat hv]
  simp

theorem throughout_list {items : List Value} :
    (value (.list items)).Throughout ok ↔
      ok (value (.list items)) ∧ ∀ v ∈ items, (value v).Throughout ok := by
  rw [throughout_iff, direct_list, List.forall_mem_map]

theorem throughout_map {entries : List (String × Value)} :
    (value (.map entries)).Throughout ok ↔
      ok (value (.map entries)) ∧ ∀ e ∈ entries, (value e.2).Throughout ok := by
  rw [throughout_iff, direct_map, List.forall_mem_map]

theorem throughout_value_record {r : Record} :
    (value (.record r)).Throughout ok ↔ ok (value (.record r)) ∧ (record r).Throughout ok := by
  rw [throughout_iff, direct_value_record, List.forall_mem_singleton]

/-- A record is its type and its values. -/
theorem throughout_record {r : Record} :
    (record r).Throughout ok ↔
      ok (record r) ∧ (recordType r.type).Throughout ok ∧
        ∀ e ∈ r.fields, (value e.2).Throughout ok := by
  rw [throughout_iff, direct_record, List.forall_mem_append, List.forall_mem_map,
    List.forall_mem_singleton, and_comm (a := ∀ e ∈ r.fields, _)]

/-! ### Types -/

theorem throughout_recordType {T : RecordType} :
    (recordType T).Throughout ok ↔
      ok (recordType T) ∧ (∀ f ∈ T.schema, (fieldType f.2).Throughout ok) ∧
        ∀ P, T.parent = some P → (recordType P).Throughout ok := by
  rw [throughout_iff, direct_recordType, List.forall_mem_append, List.forall_mem_map,
    List.forall_mem_map]
  simp only [Option.mem_toList]

theorem throughout_fieldType_record {T : RecordType} {d : Option Record} :
    (fieldType (.record T d)).Throughout ok ↔
      ok (fieldType (.record T d)) ∧ (recordType T).Throughout ok ∧
        ∀ r, d = some r → (record r).Throughout ok := by
  rw [throughout_iff, direct_fieldType_record, List.forall_mem_cons, List.forall_mem_map]
  simp only [Option.mem_toList]

theorem throughout_fieldType_optional {inner : FieldType} {d : Value} :
    (fieldType (.optional inner d)).Throughout ok ↔
      ok (fieldType (.optional inner d)) ∧ (fieldType inner).Throughout ok ∧
        (value d).Throughout ok := by
  rw [throughout_iff, direct_fieldType_optional, List.forall_mem_cons, List.forall_mem_singleton]

theorem throughout_fieldType_enum {members : List Value} {d : Value} :
    (fieldType (.enum members d)).Throughout ok ↔
      ok (fieldType (.enum members d)) ∧ (value d).Throughout ok ∧
        ∀ m ∈ members, (value m).Throughout ok := by
  rw [throughout_iff, direct_fieldType_enum, List.forall_mem_cons, List.forall_mem_map]

/-- A union has the types of its branches, and the fallback type, in it. -/
theorem throughout_fieldType_union {tag : String} {branches : List (String × RecordType)}
    {fallback : Option RecordType} :
    (fieldType (.union tag branches fallback)).Throughout ok ↔
      ok (fieldType (.union tag branches fallback)) ∧
        ∀ T ∈ RecordType.candidates branches fallback, (recordType T).Throughout ok := by
  rw [throughout_iff, direct_fieldType_union, List.forall_mem_map]

end Part

end Schemata
