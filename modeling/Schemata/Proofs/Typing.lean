import Schemata.Proofs.Contents
import Schemata.Proofs.Reading
import Schemata.Record.Write

/-!
# Typing of stored values

What a field of a record may hold is said by `FieldType.conforms`, without reference to reading: a
value of the right kind, an instance of the right record type, a member. This file shows that
reading only gives such values, and what else is true of every value that a field has read.

* A successful read never turns a value that is there into undefined, so undefined is stored only in
  a field without a default (`defaultValue_of_readField`).
* Reading a stored value again gives it back (`read_of_read`), if each union selects by a tag that
  cannot be filled in behind its back (`FieldType.TagStrict`).

`FieldType.Holds` collects these facts for one field and `Record.WellTyped` for a whole record. Both
survive the numbering of fresh storage.
-/

namespace Schemata

namespace FieldType

/-! ## Conforming values -/

/-- Whether a value is one that a field of this type may hold. -/
def conforms : FieldType → Value → Bool
  | .any, _ => true
  | .bool _, v => v.bool?.isSome
  | .num _, v => v.num?.isSome
  | .str _, v => v.str?.isSome
  | .record T _, v => v.isInstanceOf T
  | .optional inner _, v => v.isNullish || inner.conforms v
  | .enum members _, v => v.isAmong members
  | .union _ branches fallback, v => (RecordType.candidates branches fallback).any v.isInstanceOf
termination_by structural F => F

/-- Every union that the type consists of, optionals apart, declares the tag as a string without a
default in each record type that it can select. Nothing is asked of the unions inside these record
types: a record that is there is kept as it is. -/
def TagStrict : FieldType → Prop
  | .optional inner _ => inner.TagStrict
  | .union tag branches fallback =>
    ∀ T ∈ RecordType.candidates branches fallback, T.field? tag = some (.str none)
  | _ => True
termination_by structural F => F

theorem orDefault_orDefault (F : FieldType) (v : Value) :
    F.orDefault (F.orDefault v) = F.orDefault v := by
  by_cases hv : v.isUndefined = true
  · simp only [orDefault, hv, if_true]
    split <;> rfl
  · simp [orDefault, hv]

theorem orDefault_defaultValue (F : FieldType) : F.orDefault F.defaultValue = F.defaultValue :=
  F.orDefault_orDefault .undefined

theorem orDefault_of_ne_undefined {F : FieldType} {v : Value} (h : v ≠ .undefined) :
    F.orDefault v = v := by
  cases v with
  | undefined => exact absurd rfl h
  | _ => rfl

theorem orDefault_of_not_nullish {F : FieldType} {v : Value} (h : v.isNullish = false) :
    F.orDefault v = v := by
  cases v with
  | undefined => cases h
  | _ => rfl

end FieldType

/-! ## Instances -/

theorem Record.isInstanceOf_type (r : Record) : r.isInstanceOf r.type = true :=
  RecordType.isSubtypeOf_refl r.type

theorem Value.exists_record_of_isInstanceOf {v : Value} {T : RecordType}
    (h : v.isInstanceOf T = true) : ∃ r, v = .record r := by
  cases v with
  | record r => exact ⟨r, rfl⟩
  | _ => cases h

theorem RecordType.type_of_build {T : RecordType} {v : Value} {r : Record}
    (h : T.build v = .ok r) : r.type = T := by
  obtain ⟨fields, -, rfl⟩ := build_eq_ok_iff.mp h
  rfl

theorem RecordType.type_of_construct {T : RecordType} {v : Value} {r : Record}
    (h : T.construct v = .ok r) : r.type = T :=
  type_of_build (construct_eq_ok_iff.mp h).2

/-- A conversion gives an instance. -/
theorem RecordType.isInstanceOf_of_convert {T : RecordType} {v w : Value}
    (h : T.convert v = .ok w) : w.isInstanceOf T = true := by
  rw [convert_eq_ok_iff] at h
  split at h
  · subst h
    assumption
  · obtain ⟨r, hr, rfl⟩ := h
    obtain rfl := type_of_build hr
    exact r.isInstanceOf_type

/-- A conversion keeps exactly the instances. -/
theorem RecordType.convert_eq_self_iff {T : RecordType} {v : Value} :
    T.convert v = .ok v ↔ v.isInstanceOf T = true :=
  ⟨isInstanceOf_of_convert, fun h ↦ convert_eq_ok_iff.mpr (by rw [if_pos h])⟩

/-! ## What a read gives -/

namespace FieldType

variable {F : FieldType} {v w : Value}

/-- **A read gives a conforming value.** -/
theorem conforms_of_read (h : F.read v = .ok w) : F.conforms w = true := by
  induction F using FieldType.induction generalizing v w with
  | any => rfl
  | bool d =>
    obtain ⟨rfl, hw⟩ := read_bool_eq_ok_iff.mp h
    exact hw
  | num d =>
    obtain ⟨rfl, hw⟩ := read_num_eq_ok_iff.mp h
    exact hw
  | str d =>
    obtain ⟨rfl, hw⟩ := read_str_eq_ok_iff.mp h
    exact hw
  | record T d => exact RecordType.isInstanceOf_of_convert (read_record_eq_ok_iff.mp h).2
  | optional inner d ih =>
    rw [read_optional_eq_ok_iff] at h
    rw [conforms, Bool.or_eq_true]
    split at h
    · subst h
      exact Or.inl (by assumption)
    · exact Or.inr (ih h)
  | enum members d => exact (read_enum_eq_ok_iff.mp h).2
  | union tag branches fallback =>
    obtain ⟨t, T, -, hT, hw⟩ := read_union_eq_ok_iff.mp h
    exact List.any_eq_true.mpr
      ⟨T, RecordType.mem_candidates_of_select? hT, RecordType.isInstanceOf_of_convert hw⟩

theorem not_nullish_of_isInstanceOf {T : RecordType} (h : w.isInstanceOf T = true) :
    w.isNullish = false := by
  obtain ⟨r, rfl⟩ := Value.exists_record_of_isInstanceOf h
  rfl

/-- A read of a value that is there gives a value that is there. -/
theorem not_nullish_of_read (h : F.read v = .ok w) (hv : v.isNullish = false) :
    w.isNullish = false := by
  induction F using FieldType.induction generalizing v w with
  | any => rwa [read_any_eq_ok_iff.mp h]
  | bool d => rwa [(read_bool_eq_ok_iff.mp h).1]
  | num d => rwa [(read_num_eq_ok_iff.mp h).1]
  | str d => rwa [(read_str_eq_ok_iff.mp h).1]
  | record T d =>
    exact not_nullish_of_isInstanceOf
      (RecordType.isInstanceOf_of_convert (read_record_eq_ok_iff.mp h).2)
  | optional inner d ih =>
    rw [read_optional_eq_ok_iff, orDefault_of_not_nullish hv, hv] at h
    exact ih h hv
  | enum members d => rwa [(read_enum_eq_ok_iff.mp h).1, orDefault_of_not_nullish hv]
  | union tag branches fallback =>
    obtain ⟨t, T, -, -, hw⟩ := read_union_eq_ok_iff.mp h
    exact not_nullish_of_isInstanceOf (RecordType.isInstanceOf_of_convert hw)

/-- A read that gives undefined was given undefined. -/
theorem eq_undefined_of_read (h : F.read v = .ok .undefined) : v = .undefined := by
  cases v with
  | undefined => rfl
  | null =>
    cases F with
    | any => cases h
    | bool | num | str | record | union => cases h
    | optional inner d => cases h
    | enum members d => exact (read_enum_eq_ok_iff.mp h).1.symm
  | _ => exact absurd (not_nullish_of_read h rfl) (by simp [Value.isNullish])

/-- Undefined is stored in a field without a default only. -/
theorem defaultValue_of_readField {key : String} (h : F.readField key v = .ok .undefined) :
    F.defaultValue = .undefined := by
  have hv := eq_undefined_of_read (readField_eq_ok_iff.mp h)
  rw [orDefault] at hv
  split at hv
  · exact hv
  · subst hv
    contradiction

/-! ## Reading again -/

/-- A union keeps a value exactly if the value's own tag selects a type that it is an instance
of. -/
theorem read_union_eq_self_iff {tag : String} {branches : List (String × RecordType)}
    {fallback : Option RecordType} :
    (union tag branches fallback).read w = .ok w ↔
      ∃ t T, w.get? tag = some t ∧ RecordType.select? branches fallback t.display = some T ∧
        w.isInstanceOf T = true := by
  rw [read_union_eq_ok_iff]
  simp only [RecordType.convert_eq_self_iff]

/-- Whether the field type takes a value that is there as it is, with all that is in it. A union
asks the value's own tag which type it should be an instance of. -/
def takes : FieldType → Value → Bool
  | .any, _ => true
  | .bool _, v => v.bool?.isSome
  | .num _, v => v.num?.isSome
  | .str _, v => v.str?.isSome
  | .record T _, v => v.isInstanceOf T
  | .optional inner _, v => v.isNullish || inner.takes v
  | .enum members _, v => v.isAmong members
  | .union tag branches fallback, v =>
    (v.get? tag).any fun t ↦ (RecordType.select? branches fallback t.display).any v.isInstanceOf
termination_by structural F => F

/-- **What is read as itself.** -/
theorem read_eq_self_iff (hv : v ≠ .undefined) : F.read v = .ok v ↔ F.takes v = true := by
  induction F using FieldType.induction with
  | any => exact iff_of_true rfl rfl
  | bool d => exact read_bool_eq_ok_iff.trans (and_iff_right rfl)
  | num d => exact read_num_eq_ok_iff.trans (and_iff_right rfl)
  | str d => exact read_str_eq_ok_iff.trans (and_iff_right rfl)
  | record T d =>
    rw [read_record_eq_ok_iff, RecordType.convert_eq_self_iff, takes, and_iff_right_iff_imp]
    intro hinst
    obtain ⟨r, rfl⟩ := Value.exists_record_of_isInstanceOf hinst
    exact Or.inr rfl
  | optional inner d ih =>
    rw [read_optional_eq_ok_iff, orDefault_of_ne_undefined hv, takes, Bool.or_eq_true, ← ih]
    cases v.isNullish <;> simp
  | enum members d =>
    rw [read_enum_eq_ok_iff, orDefault_of_ne_undefined hv, takes]
    exact and_iff_right rfl
  | union tag branches fallback =>
    rw [read_union_eq_self_iff, takes]
    simp only [Option.any_eq_true]
    constructor
    · rintro ⟨t, T, ht, hT, hinst⟩
      exact ⟨t, ht, T, hT, hinst⟩
    · rintro ⟨t, ht, T, hT, hinst⟩
      exact ⟨t, T, ht, hT, hinst⟩

/-- The tag of a record that was built, where its type declares it as a string, is the tag that it
was built from, or the default if that one was absent. -/
theorem get?_tag_of_build {T : RecordType} {tag : String} {d : Option String} {r : Record}
    (hT : T.field? tag = some (.str d)) (h : T.build v = .ok r) :
    ∃ s, r.get? tag = some (.str s) ∧
      (v.get? tag = some (.str s) ∨ v.getD tag = .undefined ∧ d = some s) := by
  obtain ⟨fields, hfields, rfl⟩ := RecordType.build_eq_ok_iff.mp h
  obtain ⟨x, hx, hget⟩ := get?_readFields hfields hT
  obtain ⟨rfl, hstr⟩ := read_str_eq_ok_iff.mp (readField_eq_ok_iff.mp hx)
  cases ht : v.getD tag with
  | undefined =>
    rw [ht] at hstr hget
    cases d with
    | none => cases hstr
    | some s => exact ⟨s, hget, Or.inr ⟨rfl, rfl⟩⟩
  | str s =>
    rw [ht] at hget
    refine ⟨s, hget, Or.inl ?_⟩
    cases hv : v.get? tag with
    | none => simp [Value.getD, hv] at ht
    | some t =>
      rw [Value.getD, hv, Option.getD_some] at ht
      rw [ht]
  | _ =>
    rw [ht] at hstr
    cases hstr

/-- **Reading is idempotent** where tags are strict. -/
theorem read_of_read (hF : F.TagStrict) (h : F.read v = .ok w) : F.read w = .ok w := by
  induction F using FieldType.induction generalizing v w with
  | any => rfl
  | bool d =>
    obtain ⟨rfl, -⟩ := read_bool_eq_ok_iff.mp h
    exact h
  | num d =>
    obtain ⟨rfl, -⟩ := read_num_eq_ok_iff.mp h
    exact h
  | str d =>
    obtain ⟨rfl, -⟩ := read_str_eq_ok_iff.mp h
    exact h
  | record T d =>
    have hw := RecordType.isInstanceOf_of_convert (read_record_eq_ok_iff.mp h).2
    obtain ⟨r, rfl⟩ := Value.exists_record_of_isInstanceOf hw
    exact read_record_eq_ok_iff.mpr ⟨Or.inr rfl, RecordType.convert_eq_self_iff.mpr hw⟩
  | optional inner d ih =>
    rw [TagStrict] at hF
    rw [read_optional_eq_ok_iff] at h ⊢
    split at h
    · subst h
      rw [orDefault_orDefault, if_pos (by assumption)]
    · -- What the inner type gives for a value that is there is there too: no default comes in.
      rename_i hx
      have hw : w.isNullish = false := not_nullish_of_read h (by simpa using hx)
      rw [orDefault_of_not_nullish hw, hw]
      exact ih hF h
  | enum members d =>
    obtain ⟨rfl, hmem⟩ := read_enum_eq_ok_iff.mp h
    exact read_enum_eq_ok_iff.mpr ⟨(orDefault_orDefault _ _).symm, hmem⟩
  | union tag branches fallback =>
    obtain ⟨t, T, ht, hT, hconvert⟩ := read_union_eq_ok_iff.mp h
    have hinst := RecordType.isInstanceOf_of_convert hconvert
    rw [RecordType.convert_eq_ok_iff] at hconvert
    split at hconvert
    · subst hconvert
      exact h
    · -- A strict tag is not filled in, so the record that was built selects its type again.
      obtain ⟨r, hr, rfl⟩ := hconvert
      rw [TagStrict] at hF
      have htag := hF T (RecordType.mem_candidates_of_select? hT)
      obtain ⟨s, hs, hv | ⟨-, hnone⟩⟩ := get?_tag_of_build htag hr
      · obtain rfl : t = .str s := Option.some.inj (ht.symm.trans hv)
        exact read_union_eq_self_iff.mpr ⟨_, T, hs, hT, hinst⟩
      · cases hnone

/-! ## Settling -/

/-- Sameness is equality except for numbers and records. -/
theorem same_eq_equal {m : Value} (hnum : v.num? = none) (hrecord : v.record? = none) :
    m.same v = m.equal v := by
  cases v with
  | num n => cases hnum
  | record r => cases hrecord
  | _ => cases m <;> rfl

theorem same_settle {m : Value} (h : m.same v = true) (next : Nat) :
    m.same (v.settle next).1 = true := by
  cases v with
  | undefined | null | bool | num | str => exact h
  | list items =>
    rw [same_eq_equal rfl rfl] at h ⊢
    exact (Value.equal_settle m (.list items) next).trans h
  | map entries =>
    rw [same_eq_equal rfl rfl] at h ⊢
    exact (Value.equal_settle m (.map entries) next).trans h
  | record s =>
    cases m with
    | record r =>
      -- Only a record that has its number already is the same as another one.
      have hs : s.storage.isSome = true := by
        simp only [Value.same, Record.identical, Bool.and_eq_true, beq_iff_eq] at h
        rw [← h.2]
        exact h.1.2
      simp only [Value.settle, Record.settle_of_storage hs]
      exact h
    | _ => cases h

theorem isAmong_settle {members : List Value} (h : v.isAmong members = true) (next : Nat) :
    (v.settle next).1.isAmong members = true := by
  obtain ⟨m, hm, hsame⟩ := List.any_eq_true.mp h
  exact List.any_eq_true.mpr ⟨m, hm, same_settle hsame next⟩

theorem orDefault_settle (h : F.orDefault v = v) (next : Nat) :
    F.orDefault (v.settle next).1 = (v.settle next).1 := by
  cases v with
  | undefined => exact h
  | _ => rfl

theorem conforms_settle (h : F.conforms v = true) (next : Nat) :
    F.conforms (v.settle next).1 = true := by
  induction F using FieldType.induction generalizing v with
  | any => rfl
  | bool | num | str =>
    cases v with
    | list | map | record => cases h
    | _ => exact h
  | record T d => rwa [conforms, Value.isInstanceOf_settle]
  | optional inner d ih =>
    rw [conforms, Bool.or_eq_true] at h ⊢
    rw [Value.isNullish_settle]
    exact h.imp_right ih
  | enum members d => exact isAmong_settle h next
  | union tag branches fallback =>
    obtain ⟨T, hT, hinst⟩ := List.any_eq_true.mp h
    exact List.any_eq_true.mpr ⟨T, hT, by rwa [Value.isInstanceOf_settle]⟩

/-- A value that reading keeps is kept when it is settled. -/
theorem read_settle (h : F.read v = .ok v) (next : Nat) :
    F.read (v.settle next).1 = .ok (v.settle next).1 := by
  induction F using FieldType.induction generalizing v with
  | any => rfl
  | bool | num | str =>
    cases v with
    | list | map | record => cases h
    | _ => exact h
  | record T d =>
    obtain ⟨-, hconvert⟩ := read_record_eq_ok_iff.mp h
    have hinst := RecordType.convert_eq_self_iff.mp hconvert
    obtain ⟨r, rfl⟩ := Value.exists_record_of_isInstanceOf hinst
    rw [← Value.isInstanceOf_settle _ next] at hinst
    exact read_record_eq_ok_iff.mpr ⟨Or.inr rfl, RecordType.convert_eq_self_iff.mpr hinst⟩
  | optional inner d ih =>
    rw [read_optional_eq_ok_iff] at h ⊢
    split at h
    · rw [orDefault_settle h.symm, Value.isNullish_settle, if_pos (by rwa [h])]
    · rename_i hx
      have hv : v.isNullish = false := not_nullish_of_read h (by simpa using hx)
      rw [orDefault_of_not_nullish hv] at h
      rw [orDefault_of_not_nullish (by simpa using hv), Value.isNullish_settle, hv]
      exact ih h
  | enum members d =>
    obtain ⟨hv, hmem⟩ := read_enum_eq_ok_iff.mp h
    exact read_enum_eq_ok_iff.mpr ⟨(orDefault_settle hv.symm next).symm, isAmong_settle hmem next⟩
  | union tag branches fallback =>
    obtain ⟨t, T, ht, hT, hinst⟩ := read_union_eq_self_iff.mp h
    have htext := Value.display_get?_settle v next tag
    rw [ht, Option.map_some, Option.map_eq_some_iff] at htext
    obtain ⟨t', ht', htt⟩ := htext
    exact read_union_eq_self_iff.mpr ⟨t', T, ht', htt ▸ hT, by rwa [Value.isInstanceOf_settle]⟩

/-! ## Stored values -/

/-- What is true of every value that a field of this type has read. -/
structure Holds (F : FieldType) (v : Value) : Prop where
  /-- The value is of the kind that the type asks for. -/
  conforms : F.conforms v = true
  /-- An absent value has no default to stand in for it. -/
  defaultValue : v = .undefined → F.defaultValue = .undefined
  /-- Reading keeps the value. -/
  read : F.TagStrict → F.read v = .ok v

theorem holds_of_readField {key : String} (h : F.readField key v = .ok w) : F.Holds w where
  conforms := conforms_of_read (readField_eq_ok_iff.mp h)
  defaultValue := by
    rintro rfl
    exact defaultValue_of_readField h
  read hF := read_of_read hF (readField_eq_ok_iff.mp h)

theorem Holds.settle (h : F.Holds v) (next : Nat) : F.Holds (v.settle next).1 where
  conforms := conforms_settle h.conforms next
  defaultValue hv := by
    refine h.defaultValue ?_
    cases v with
    | undefined => rfl
    | _ => cases hv
  read hF := read_settle (h.read hF) next

end FieldType

/-! ## Records -/

/-- A record has the keys of its schema, in order, and each of its fields holds a value of the
field's type. -/
structure Record.WellTyped (r : Record) : Prop where
  keys_eq : Entries.keys r.fields = Entries.keys r.type.schema
  holds : ∀ {key F v}, r.type.field? key = some F → r.get? key = some v → F.Holds v

namespace Record.WellTyped

variable {r r' : Record}

theorem isSome_get? (h : r.WellTyped) (key : String) :
    (r.get? key).isSome = (r.type.field? key).isSome := by
  rw [Bool.eq_iff_iff, get?, RecordType.field?, Entries.get?_isSome_iff, Entries.get?_isSome_iff,
    h.keys_eq]

/-- Under each key of its schema a record has a value that the declared type holds. -/
theorem exists_holds (h : r.WellTyped) {key : String} {F : FieldType}
    (hF : r.type.field? key = some F) : ∃ v, r.get? key = some v ∧ F.Holds v := by
  have hsome : (r.get? key).isSome = true := by
    rw [h.isSome_get?]
    exact Option.isSome_of_eq_some hF
  obtain ⟨v, hv⟩ := Option.isSome_iff_exists.mp hsome
  exact ⟨v, hv, h.holds hF hv⟩

/-- What a record has is a value of a field of its type. -/
theorem exists_field? (h : r.WellTyped) {key : String} {v : Value} (hv : r.get? key = some v) :
    ∃ F, r.type.field? key = some F ∧ r.getD key = v := by
  have hsome : (r.type.field? key).isSome = true := by
    rw [← h.isSome_get?]
    exact Option.isSome_of_eq_some hv
  obtain ⟨F, hF⟩ := Option.isSome_iff_exists.mp hsome
  exact ⟨F, hF, by rw [getD, hv, Option.getD_some]⟩

theorem holds_getD (h : r.WellTyped) {key : String} {F : FieldType}
    (hF : r.type.field? key = some F) : F.Holds (r.getD key) := by
  obtain ⟨v, hv, hholds⟩ := h.exists_holds hF
  rw [getD, hv, Option.getD_some]
  exact hholds

theorem of_build {T : RecordType} {v : Value} (h : T.build v = .ok r) : r.WellTyped := by
  obtain ⟨fields, hfields, rfl⟩ := RecordType.build_eq_ok_iff.mp h
  refine ⟨keys_of_readFields hfields, ?_⟩
  intro key F x hF hx
  obtain ⟨y, hy, hget⟩ := get?_readFields hfields hF
  obtain rfl : y = x := Option.some.inj (hget.symm.trans hx)
  exact FieldType.holds_of_readField hy

theorem set {key : String} {v : Value} (h : r.WellTyped) (hset : r.set key v = .ok r') :
    r'.WellTyped := by
  obtain ⟨F, x, hF, hx, rfl⟩ := Record.set_eq_ok_iff.mp hset
  have hkey : key ∈ Entries.keys r.fields := by
    rw [h.keys_eq, ← Entries.get?_isSome_iff]
    exact Option.isSome_of_eq_some hF
  refine ⟨?_, ?_⟩
  · rw [Entries.keys_put, if_pos hkey]
    exact h.keys_eq
  · intro other G y hG hy
    rw [get?, Entries.get?_put] at hy
    by_cases hk : key = other
    · subst hk
      rw [if_pos rfl, Option.some.injEq] at hy
      obtain rfl : F = G := Option.some.inj (hF.symm.trans hG)
      exact hy ▸ FieldType.holds_of_readField hx
    · rw [if_neg hk] at hy
      exact h.holds hG hy

theorem toDraft (h : r.WellTyped) : r.toDraft.WellTyped := ⟨h.keys_eq, h.holds⟩

theorem commit (h : r.WellTyped) : r.commit.WellTyped := ⟨h.keys_eq, h.holds⟩

theorem settle (h : r.WellTyped) (next : Nat) : (r.settle next).1.WellTyped := by
  rcases r.settle_cases next with hr | ⟨-, hr⟩
  · rwa [hr]
  · rw [hr]
    refine ⟨(keys_settleEntries _ _).trans h.keys_eq, ?_⟩
    intro key F w hF hw
    obtain ⟨n, -, hn⟩ := exists_get?_settleEntries r.fields (next + 1) key
    obtain ⟨v, hv, rfl⟩ := Option.map_eq_some_iff.mp (hn.symm.trans hw)
    exact (h.holds hF hv).settle n

end Record.WellTyped

end Schemata
