import Schemata.Reading

/-!
# Induction over values and over field types

Values, records, record types and field types are one nested inductive family, and the recursor that
comes with it has a motive for each list and pair in between. Two principles replace it. Both hand
the parts over by membership in a list, the way in which the lemmas about lists want them.

* `Value.induction` goes through the items, entries and fields of a value. The type of a record is
  not a part here.
* `FieldType.induction` goes through the field types of the record types that a field type refers
  to. Values (defaults, members) are not parts here. It is what the recursion of reading needs.
-/

namespace Schemata

/-! ## Values -/

/-- What an induction over values has to show. -/
private structure Value.InductionSteps (P : Value → Prop) : Prop where
  flat : ∀ v : Value, v.isObject = false → P v
  list : ∀ items : List Value, (∀ v ∈ items, P v) → P (.list items)
  map : ∀ entries : List (String × Value), (∀ e ∈ entries, P e.2) → P (.map entries)
  record : ∀ r : Record, (∀ e ∈ r.fields, P e.2) → P (.record r)

section

variable {P : Value → Prop}

mutual

private theorem Value.all_of_steps (h : Value.InductionSteps P) : ∀ v : Value, P v
  | .undefined => h.flat _ rfl
  | .null => h.flat _ rfl
  | .bool _ => h.flat _ rfl
  | .num _ => h.flat _ rfl
  | .str _ => h.flat _ rfl
  | .list items => h.list items (allItems_of_steps h items)
  | .map entries => h.map entries (allEntries_of_steps h entries)
  | .record r => Record.all_of_steps h r
termination_by structural v => v

private theorem Record.all_of_steps (h : Value.InductionSteps P) : ∀ r : Record, P (.record r)
  | ⟨_, _, fields, _⟩ => h.record _ (allEntries_of_steps h fields)
termination_by structural r => r

private theorem allItems_of_steps (h : Value.InductionSteps P) :
    ∀ items : List Value, ∀ v ∈ items, P v
  | [] => List.forall_mem_nil _
  | v :: rest => List.forall_mem_cons.mpr ⟨v.all_of_steps h, allItems_of_steps h rest⟩
termination_by structural items => items

private theorem allEntries_of_steps (h : Value.InductionSteps P) :
    ∀ entries : List (String × Value), ∀ e ∈ entries, P e.2
  | [] => List.forall_mem_nil _
  | (_, v) :: rest => List.forall_mem_cons.mpr ⟨v.all_of_steps h, allEntries_of_steps h rest⟩
termination_by structural entries => entries

end

end

/-- **Induction over values.** -/
@[elab_as_elim]
theorem Value.induction {P : Value → Prop} (flat : ∀ v : Value, v.isObject = false → P v)
    (list : ∀ items : List Value, (∀ v ∈ items, P v) → P (.list items))
    (map : ∀ entries : List (String × Value), (∀ e ∈ entries, P e.2) → P (.map entries))
    (record : ∀ r : Record, (∀ e ∈ r.fields, P e.2) → P (.record r)) (v : Value) : P v :=
  v.all_of_steps ⟨flat, list, map, record⟩

/-! ## Field types -/

/-- The record types that a union can select: those of its branches and the fallback type. -/
def RecordType.candidates (branches : Entries RecordType) (fallback : Option RecordType) :
    List RecordType :=
  branches.map Prod.snd ++ fallback.toList

theorem RecordType.mem_candidates_of_select? {branches : Entries RecordType}
    {fallback : Option RecordType} {text : String} {T : RecordType}
    (h : select? branches fallback text = some T) : T ∈ candidates branches fallback := by
  rw [candidates, List.mem_append]
  cases hb : Entries.get? branches text with
  | some S =>
    rw [select?, hb, Option.some_or, Option.some.injEq] at h
    subst h
    exact Or.inl (List.mem_map_of_mem (Entries.mem_of_get?_eq_some hb))
  | none =>
    rw [select?, hb, Option.none_or] at h
    rw [h]
    exact Or.inr (List.mem_singleton_self T)

/-- What an induction over field types has to show. -/
private structure FieldType.InductionSteps (P : FieldType → Prop) : Prop where
  any : P .any
  bool : ∀ d, P (.bool d)
  num : ∀ d, P (.num d)
  str : ∀ d, P (.str d)
  record : ∀ (T : RecordType) (d), (∀ f ∈ T.schema, P f.2) → P (.record T d)
  optional : ∀ inner d, P inner → P (.optional inner d)
  enum : ∀ members d, P (.enum members d)
  union : ∀ tag branches fallback,
    (∀ T ∈ RecordType.candidates branches fallback, ∀ f ∈ T.schema, P f.2) →
      P (.union tag branches fallback)

section

variable {P : FieldType → Prop}

mutual

private theorem FieldType.all_of_steps (h : FieldType.InductionSteps P) : ∀ F : FieldType, P F
  | .any => h.any
  | .bool d => h.bool d
  | .num d => h.num d
  | .str d => h.str d
  | .record T d => h.record T d (RecordType.all_of_steps h T)
  | .optional inner d => h.optional inner d (inner.all_of_steps h)
  | .enum members d => h.enum members d
  | .union tag branches fallback =>
    h.union tag branches fallback (List.forall_mem_append.mpr
      ⟨List.forall_mem_map.mpr (allBranches_of_steps h branches),
        allFallbacks_of_steps h fallback⟩)
termination_by structural F => F

private theorem RecordType.all_of_steps (h : FieldType.InductionSteps P) :
    ∀ T : RecordType, ∀ f ∈ T.schema, P f.2
  | ⟨_, _, schema, _, _⟩ => allFields_of_steps h schema
termination_by structural T => T

private theorem allFields_of_steps (h : FieldType.InductionSteps P) :
    ∀ schema : List (String × FieldType), ∀ f ∈ schema, P f.2
  | [] => List.forall_mem_nil _
  | (_, F) :: rest => List.forall_mem_cons.mpr ⟨F.all_of_steps h, allFields_of_steps h rest⟩
termination_by structural schema => schema

private theorem allBranches_of_steps (h : FieldType.InductionSteps P) :
    ∀ branches : List (String × RecordType), ∀ b ∈ branches, ∀ f ∈ b.2.schema, P f.2
  | [] => List.forall_mem_nil _
  | (_, T) :: rest =>
    List.forall_mem_cons.mpr ⟨RecordType.all_of_steps h T, allBranches_of_steps h rest⟩
termination_by structural branches => branches

private theorem allFallbacks_of_steps (h : FieldType.InductionSteps P) :
    ∀ fallback : Option RecordType, ∀ T ∈ fallback.toList, ∀ f ∈ T.schema, P f.2
  | none => List.forall_mem_nil _
  | some T => List.forall_mem_cons.mpr ⟨RecordType.all_of_steps h T, List.forall_mem_nil _⟩
termination_by structural fallback => fallback

end

end

/-- **Induction over field types.** The hypotheses are about the field types in the schemas of the
record types that a field type refers to. -/
@[elab_as_elim]
theorem FieldType.induction {P : FieldType → Prop} (any : P .any) (bool : ∀ d, P (.bool d))
    (num : ∀ d, P (.num d)) (str : ∀ d, P (.str d))
    (record : ∀ (T : RecordType) (d), (∀ f ∈ T.schema, P f.2) → P (.record T d))
    (optional : ∀ inner d, P inner → P (.optional inner d))
    (enum : ∀ members d, P (.enum members d))
    (union : ∀ tag branches fallback,
      (∀ T ∈ RecordType.candidates branches fallback, ∀ f ∈ T.schema, P f.2) →
        P (.union tag branches fallback))
    (F : FieldType) : P F :=
  F.all_of_steps ⟨any, bool, num, str, record, optional, enum, union⟩

end Schemata
