import Schemata.Proofs.Induction

/-!
# What a successful read says

Reading is one recursion with a branch for each kind of field type, and a failure can come from any
depth. A success is simpler: each kind of field type accepts for one reason, which the lemmas
`read_…_eq_ok_iff` name. Everything proved about the results of reading goes through them, and
through `RecordType.convert_eq_ok_iff` and `get?_readFields` for what is built. What is said about
failures as well starts from one equation for each kind (`read_bool` and the like).
-/

namespace Schemata

/-! ## Computations -/

section

variable {ε ε' α β γ : Type}

theorem map_map (x : Except ε α) (f : α → β) (g : β → γ) :
    (x.map f).map g = x.map fun a ↦ g (f a) := by
  cases x <;> rfl

theorem map_mapError (x : Except ε α) (f : ε → ε') (g : α → β) :
    (x.mapError f).map g = (x.map g).mapError f := by
  cases x <;> rfl

theorem map_bind (x : Except ε α) (f : α → β) (g : β → Except ε γ) :
    (x.map f >>= g) = x >>= fun a ↦ g (f a) := by
  cases x <;> rfl

theorem bind_map (x : Except ε α) (f : α → Except ε β) (g : β → γ) :
    (x >>= f).map g = x >>= fun a ↦ (f a).map g := by
  cases x <;> rfl

theorem map_eq_ok_iff {x : Except ε α} {f : α → β} {b : β} :
    x.map f = .ok b ↔ ∃ a, x = .ok a ∧ f a = b := by
  cases x <;> simp [Except.map]

theorem exists_map_eq_ok_iff {x : Except ε α} {f : α → β} :
    (∃ b, x.map f = .ok b) ↔ ∃ a, x = .ok a := by
  cases x <;> simp [Except.map]

theorem map_eq_error_iff {x : Except ε α} {f : α → β} {e : ε} :
    x.map f = .error e ↔ x = .error e := by
  cases x <;> simp [Except.map]

theorem mapError_eq_ok_iff {x : Except ε α} {f : ε → ε'} {a : α} :
    x.mapError f = .ok a ↔ x = .ok a := by
  cases x with
  | error e => exact iff_of_false (fun h ↦ nomatch h) (fun h ↦ nomatch h)
  | ok b =>
    have hmap : (Except.ok b : Except ε α).mapError f = .ok b := rfl
    rw [hmap, Except.ok.injEq, Except.ok.injEq]

theorem pure_eq_ok_iff {a b : α} : (pure a : Except ε α) = .ok b ↔ b = a := by
  simp [pure, Except.pure, eq_comm]

theorem bind_eq_ok_iff {x : Except ε α} {f : α → Except ε β} {b : β} :
    (x >>= f) = .ok b ↔ ∃ a, x = .ok a ∧ f a = .ok b := by
  cases x <;> simp [bind, Except.bind]

end

/-! ## Field types -/

namespace FieldType

/-! ### Equations -/

section

variable (v : Value)

theorem read_bool (d : Option Bool) :
    (bool d).read v = if v.bool?.isSome then .ok v else .error (.notKind v.display "boolean") := by
  cases v <;> rfl

theorem read_num (d : Option Number) :
    (num d).read v = if v.num?.isSome then .ok v else .error (.notKind v.display "number") := by
  cases v <;> rfl

theorem read_str (d : Option String) :
    (str d).read v = if v.str?.isSome then .ok v else .error (.notKind v.display "string") := by
  cases v <;> rfl

theorem read_record (T : RecordType) (d : Option Record) :
    (record T d).read v =
      if v.entries?.isSome || v.record?.isSome then (T.convert v).mapError .notBuilt
      else .error (.notInstance v.display T.name) := by
  cases v <;> rfl

theorem read_optional (inner : FieldType) (d : Value) :
    (optional inner d).read v =
      if ((optional inner d).orDefault v).isNullish then .ok ((optional inner d).orDefault v)
      else (inner.read ((optional inner d).orDefault v)).mapError fun _ ↦
        .notOptional ((optional inner d).orDefault v).display inner.name := rfl

theorem read_enum (members : List Value) (d : Value) :
    (enum members d).read v =
      if ((enum members d).orDefault v).isAmong members then .ok ((enum members d).orDefault v)
      else .error (.notMember ((enum members d).orDefault v).display
        (members.map Value.display)) := rfl

end

/-! ### Successes -/

variable {v w : Value}

theorem readField_eq_ok_iff {F : FieldType} {key : String} :
    F.readField key v = .ok w ↔ F.read (F.orDefault v) = .ok w := by
  rw [readField, mapError_eq_ok_iff]

theorem read_any_eq_ok_iff : any.read v = .ok w ↔ w = v := by
  rw [read, Except.ok.injEq, eq_comm]

theorem read_bool_eq_ok_iff {d : Option Bool} :
    (bool d).read v = .ok w ↔ w = v ∧ v.bool?.isSome = true := by
  cases v <;> simp [read, Value.bool?, eq_comm]

theorem read_num_eq_ok_iff {d : Option Number} :
    (num d).read v = .ok w ↔ w = v ∧ v.num?.isSome = true := by
  cases v <;> simp [read, Value.num?, eq_comm]

theorem read_str_eq_ok_iff {d : Option String} :
    (str d).read v = .ok w ↔ w = v ∧ v.str?.isSome = true := by
  cases v <;> simp [read, Value.str?, eq_comm]

/-- A record field reads maps and records, by converting them. -/
theorem read_record_eq_ok_iff {T : RecordType} {d : Option Record} :
    (record T d).read v = .ok w ↔
      (v.entries?.isSome = true ∨ v.record?.isSome = true) ∧ T.convert v = .ok w := by
  cases v <;> simp [read, Value.entries?, Value.record?, mapError_eq_ok_iff]

/-- An optional takes its default for undefined, lets nullish values pass and leaves the others to
the inner type. -/
theorem read_optional_eq_ok_iff {inner : FieldType} {d : Value} :
    (optional inner d).read v = .ok w ↔
      if ((optional inner d).orDefault v).isNullish = true then w = (optional inner d).orDefault v
      else inner.read ((optional inner d).orDefault v) = .ok w := by
  rw [read_optional]
  split
  · rw [Except.ok.injEq, eq_comm]
  · exact mapError_eq_ok_iff

/-- An enumeration takes its default for undefined and accepts members only. -/
theorem read_enum_eq_ok_iff {members : List Value} {d : Value} :
    (enum members d).read v = .ok w ↔
      w = (enum members d).orDefault v ∧ w.isAmong members = true := by
  rw [read_enum]
  split
  · rw [Except.ok.injEq]
    constructor
    · rintro rfl
      exact ⟨rfl, by assumption⟩
    · exact fun h ↦ h.1.symm
  · simp only [reduceCtorEq, false_iff, not_and]
    rintro rfl
    assumption

/-- A union converts to the record type that the text of the tag selects. -/
theorem read_union_eq_ok_iff {tag : String} {branches : List (String × RecordType)}
    {fallback : Option RecordType} :
    (union tag branches fallback).read v = .ok w ↔
      ∃ t T, v.get? tag = some t ∧ RecordType.select? branches fallback t.display = some T ∧
        T.convert v = .ok w := by
  rw [read_union]
  split
  · cases v.get? tag with
    | none => simp
    | some t => cases hT : RecordType.select? branches fallback t.display <;>
        simp [hT, mapError_eq_ok_iff]
  · have hget : v.get? tag = none := by
      cases v <;> simp_all [Value.isObject, Value.get?]
    simp [hget]

end FieldType

/-! ## Record types -/

namespace RecordType

variable {T : RecordType} {v w : Value}

theorem construct_eq (T : RecordType) (v : Value) :
    T.construct v =
      if v.isNullish || v.entries?.isSome || v.record?.isSome then T.build v
      else .error (.notASource v.display T.name) := by
  cases v <;> rfl

theorem build_eq_ok_iff {r : Record} :
    T.build v = .ok r ↔ ∃ fields, readFields T.schema v = .ok fields ∧
      r = ⟨T, none, fields, false⟩ := by
  rw [build, map_eq_ok_iff]
  simp only [eq_comm]

/-- A conversion keeps an instance and builds a record from anything else. -/
theorem convert_eq_ok_iff :
    T.convert v = .ok w ↔
      if v.isInstanceOf T = true then w = v else ∃ r, T.build v = .ok r ∧ w = .record r := by
  rw [convert_eq]
  split
  · rw [Except.ok.injEq, eq_comm]
  · rw [map_eq_ok_iff]
    simp only [eq_comm]

/-- Building needs something with fields or nothing at all. -/
theorem construct_eq_ok_iff {r : Record} :
    T.construct v = .ok r ↔
      (v.isNullish = true ∨ v.entries?.isSome = true ∨ v.record?.isSome = true) ∧
        T.build v = .ok r := by
  cases v <;> simp [construct, Value.isNullish, Value.entries?, Value.record?]

end RecordType

section

variable {schema : List (String × FieldType)} {v : Value} {fields : List (String × Value)}

theorem readFields_cons_eq_ok_iff {key : String} {F : FieldType} :
    readFields ((key, F) :: schema) v = .ok fields ↔ ∃ x more,
      F.readField key (v.getD key) = .ok x ∧ readFields schema v = .ok more ∧
        fields = (key, x) :: more := by
  rw [readFields_cons]
  cases F.readField key (v.getD key) with
  | error e => simp
  | ok x =>
    constructor
    · intro h
      obtain ⟨more, hmore, rfl⟩ := map_eq_ok_iff.mp h
      exact ⟨x, more, rfl, hmore, rfl⟩
    · rintro ⟨y, more, hy, hmore, rfl⟩
      obtain rfl := Except.ok.inj hy
      exact map_eq_ok_iff.mpr ⟨more, hmore, rfl⟩

/-- What is read for a schema is decided field by field. -/
theorem readFields_eq_ok_iff_of_forall {w : Value}
    (h : ∀ f ∈ schema, ∀ x,
      f.2.readField f.1 (v.getD f.1) = .ok x ↔ f.2.readField f.1 (w.getD f.1) = .ok x) :
    readFields schema v = .ok fields ↔ readFields schema w = .ok fields := by
  induction schema generalizing fields with
  | nil => rfl
  | cons field rest ih =>
    obtain ⟨key, F⟩ := field
    obtain ⟨hfield, hrest⟩ := List.forall_mem_cons.mp h
    simp only [readFields_cons_eq_ok_iff, hfield, ih hrest]

/-- Each field of a schema finds its own value in what is read for the schema. -/
theorem get?_readFields (h : readFields schema v = .ok fields) {key : String} {F : FieldType}
    (hF : Entries.get? schema key = some F) :
    ∃ x, F.readField key (v.getD key) = .ok x ∧ Entries.get? fields key = some x := by
  induction schema generalizing fields with
  | nil => cases hF
  | cons field rest ih =>
    obtain ⟨k, G⟩ := field
    rw [readFields_cons] at h
    cases hx : G.readField k (v.getD k) with
    | error e => simp [hx] at h
    | ok x =>
      rw [hx, map_eq_ok_iff] at h
      obtain ⟨more, hmore, rfl⟩ := h
      rw [Entries.get?_cons] at hF ⊢
      by_cases hk : k = key
      · rw [if_pos hk, Option.some.injEq] at hF
        subst hF hk
        exact ⟨x, hx, if_pos rfl⟩
      · rw [if_neg hk] at hF ⊢
        exact ih hmore hF

/-- Every value that is read for a schema was read by one of its fields. -/
theorem exists_field_of_mem_readFields (h : readFields schema v = .ok fields)
    {e : String × Value} (he : e ∈ fields) :
    ∃ f ∈ schema, f.2.readField f.1 (v.getD f.1) = .ok e.2 := by
  induction schema generalizing fields with
  | nil =>
    cases h
    cases he
  | cons field rest ih =>
    obtain ⟨k, G⟩ := field
    rw [readFields_cons] at h
    cases hx : G.readField k (v.getD k) with
    | error err => simp [hx] at h
    | ok x =>
      rw [hx, map_eq_ok_iff] at h
      obtain ⟨more, hmore, rfl⟩ := h
      rcases List.mem_cons.mp he with rfl | he
      · exact ⟨(k, G), List.mem_cons_self, hx⟩
      · obtain ⟨f, hf, hread⟩ := ih hmore he
        exact ⟨f, List.mem_cons_of_mem _ hf, hread⟩

/-- A schema is read if each of its fields is. -/
theorem exists_readFields
    (h : ∀ f ∈ schema, ∃ x, f.2.readField f.1 (v.getD f.1) = .ok x) :
    ∃ fields, readFields schema v = .ok fields := by
  induction schema with
  | nil => exact ⟨[], rfl⟩
  | cons field rest ih =>
    obtain ⟨k, G⟩ := field
    obtain ⟨⟨x, hx⟩, hrest⟩ := List.forall_mem_cons.mp h
    obtain ⟨more, hmore⟩ := ih hrest
    exact ⟨(k, x) :: more, by simp [readFields_cons, hx, hmore, Except.map]⟩

/-- A schema without repeated keys reads `target`, up to a view `f` of values, if each of its fields
reads what `target` has under its key. -/
theorem exists_readFields_eq {β : Type} (f : Value → β) {target : Entries β}
    (hkeys : Entries.keys target = Entries.keys schema) (hnodup : (Entries.keys schema).Nodup)
    (h : ∀ key F, Entries.get? schema key = some F →
      ∃ x, F.readField key (v.getD key) = .ok x ∧ Entries.get? target key = some (f x)) :
    ∃ fields, readFields schema v = .ok fields ∧ fields.map (fun e ↦ (e.1, f e.2)) = target := by
  have hread : ∀ g ∈ schema, ∃ x, g.2.readField g.1 (v.getD g.1) = .ok x := by
    intro g hg
    obtain ⟨x, hx, -⟩ := h g.1 g.2 (Entries.get?_eq_some_of_mem hnodup hg)
    exact ⟨x, hx⟩
  obtain ⟨fields, hfields⟩ := exists_readFields hread
  have hfieldsKeys := keys_of_readFields hfields
  -- Both have the keys of the schema, so it is enough to compare what is under each key.
  have hget : ∀ key, Entries.get? (fields.map fun e ↦ (e.1, f e.2)) key =
      Entries.get? target key := by
    intro key
    rw [Entries.get?_map]
    cases hF : Entries.get? schema key with
    | none =>
      have hkey : key ∉ Entries.keys schema := Entries.get?_eq_none_iff.mp hF
      rw [Entries.get?_eq_none_iff.mpr (hfieldsKeys ▸ hkey),
        Entries.get?_eq_none_iff.mpr (hkeys ▸ hkey), Option.map_none]
    | some F =>
      obtain ⟨x, hx, htarget⟩ := h key F hF
      obtain ⟨y, hy, hyget⟩ := get?_readFields hfields hF
      obtain rfl : y = x := Except.ok.inj (hy.symm.trans hx)
      rw [hyget, htarget, Option.map_some]
  refine ⟨fields, hfields, Entries.eq_of_get? ?_ ?_ hget⟩
  · rw [Entries.keys_map, hfieldsKeys, hkeys]
  · rwa [Entries.keys_map, hfieldsKeys]

end

end Schemata
