import Schemata.Proofs.Parts
import Schemata.Proofs.Typing
import Schemata.Record.Path

/-!
# What every operation preserves

An invariant of this library speaks about single parts: a record has the keys of its schema, a union
selects types that have its tag, a storage number stands for these fields. That it holds throughout
what an operation gives, if it holds throughout what the operation is given, is the same argument
each time. What comes out of a read, a build or a write is a part of what went in, a default, or a
new list, map or record made of such. So it is enough to look at the new pieces, one at a time, and
the three classes below say which these are.

* A *compositional* property is one of every list, map and field type that is put together rightly.
  Terms and declarations need no more.
* An *invariant* is also kept by building and writing a record.
* A *storageless* invariant does not depend on which number a storage has, or on whether it has one.
  Numbering fresh storage keeps it.
-/

namespace Schemata

/-- Every record type that a union can select declares the tag as a string. -/
def FieldType.TagDeclared : FieldType → Prop
  | .union tag branches fallback =>
    ∀ T ∈ RecordType.candidates branches fallback, ∃ d, T.field? tag = some (.str d)
  | _ => True

namespace Part

/-- The property holds of each value and field type that is put together from parts. -/
class Compositional (ok : Part → Prop) : Prop where
  flat : ∀ {v : Value}, v.isObject = false → ok (.value v)
  list : ∀ items : List Value, ok (.value (.list items))
  map : ∀ {entries : List (String × Value)}, (Entries.keys entries).Nodup →
    ok (.value (.map entries))
  record : ∀ r : Record, ok (.value (.record r))
  fieldType : ∀ {F : FieldType}, F.TagDeclared → ok (.fieldType F)

/-- Building and writing keep the property. -/
class Invariant (ok : Part → Prop) : Prop extends Compositional ok where
  put : ∀ {entries : List (String × Value)}, ok (.value (.map entries)) → ∀ key v,
    ok (.value (.map (Entries.put entries key v)))
  build : ∀ {T : RecordType} {v : Value} {r : Record}, T.build v = .ok r → ok (.record r)
  set : ∀ {r r' : Record} {key : String} {v : Value}, ok (.record r) → r.set key v = .ok r' →
    ok (.record r')
  toDraft : ∀ {r : Record}, ok (.record r) → ok (.record r.toDraft)
  commit : ∀ {r : Record}, ok (.record r) → ok (.record r.commit)

/-- Numbering fresh storage keeps the property. -/
class Storageless (ok : Part → Prop) : Prop extends Invariant ok where
  settleEntries : ∀ {entries : List (String × Value)}, ok (.value (.map entries)) → ∀ next,
    ok (.value (.map (settleEntries entries next).1))
  settle : ∀ {r : Record}, ok (.record r) → ∀ next, ok (.record (r.settle next).1)

end Part

/-! ## Writes that succeed -/

/-- A write in place is a write. -/
theorem Record.set_of_write {r r' : Record} {key : String} {v : Value}
    (h : r.write key v = .ok r') : r.set key v = .ok r' := by
  rw [write_eq] at h
  split at h
  · exact h
  · cases h

/-- Assigning a property is a write to its field. -/
theorem Record.set_of_assign {r r' : Record} {name : String} {v : Value}
    (h : r.assign name v = .ok r') :
    ∃ p, r.type.property? name = some p ∧ r.set p.key v = .ok r' := by
  rw [assign_eq] at h
  split at h
  · cases h
  · rename_i p hp
    rw [p.assign_eq_write] at h
    exact ⟨p, hp, set_of_write h⟩

theorem Record.update_eq_ok_iff {r r' : Record} {key : String}
    {change : Value → Except RecordError Value} :
    r.update key change = .ok r' ↔ (∃ F, r.type.field? key = some F) ∧
      ∃ v, change (r.getD key) = .ok v ∧ r.set key v = .ok r' := by
  rw [update]
  cases r.type.field? key with
  | none => simp
  | some F => cases change (r.getD key) <;> simp

/-- A nested write sets the first field on its path. -/
theorem Record.exists_set_of_setIn {r r' : Record} {path : List String} {v : Value}
    (h : r.setIn path v = .ok r') : ∃ key x, r.set key x = .ok r' := by
  cases path with
  | nil => cases h
  | cons key rest =>
    rw [setIn] at h
    obtain ⟨-, x, -, hset⟩ := update_eq_ok_iff.mp h
    exact ⟨key, x, hset⟩

open Schemata.Part

variable {ok : Part → Prop}

/-! ## Looking up -/

theorem throughout_of_get? {v x : Value} {key : String} (hv : (value v).Throughout ok)
    (hx : v.get? key = some x) : (value x).Throughout ok := by
  cases v with
  | map entries => exact (throughout_map.mp hv).2 _ (Entries.mem_of_get?_eq_some hx)
  | record r =>
    obtain ⟨-, -, hfields⟩ := throughout_record.mp (throughout_value_record.mp hv).2
    exact hfields _ (Entries.mem_of_get?_eq_some hx)
  | _ => cases hx

theorem throughout_of_getIn? {v x : Value} {path : List String} (hv : (value v).Throughout ok)
    (hx : v.getIn? path = some x) : (value x).Throughout ok := by
  induction path generalizing v with
  | nil =>
    cases hx
    exact hv
  | cons key rest ih =>
    obtain ⟨y, hy, hrest⟩ := Option.bind_eq_some_iff.mp hx
    exact ih (throughout_of_get? hv hy) hrest

theorem throughout_of_record_getIn? {r : Record} {x : Value} {path : List String}
    (hr : (record r).Throughout ok) (hx : r.getIn? path = some x) : (value x).Throughout ok := by
  cases path with
  | nil => cases hx
  | cons key rest =>
    obtain ⟨y, hy, hrest⟩ := Option.bind_eq_some_iff.mp hx
    have hmem := Entries.mem_of_get?_eq_some hy
    exact throughout_of_getIn? ((throughout_record.mp hr).2.2 _ hmem) hrest

theorem throughout_of_field? {T : RecordType} {key : String} {F : FieldType}
    (hT : (recordType T).Throughout ok) (hF : T.field? key = some F) :
    (fieldType F).Throughout ok :=
  (throughout_recordType.mp hT).2.1 _ (Entries.mem_of_get?_eq_some hF)

theorem throughout_of_mem_put {entries : List (String × Value)} {key : String} {v : Value}
    (hentries : ∀ e ∈ entries, (value e.2).Throughout ok) (hv : (value v).Throughout ok) :
    ∀ e ∈ Entries.put entries key v, (value e.2).Throughout ok := by
  intro e he
  rcases Entries.mem_put he with he | rfl
  · exact hentries e he
  · exact hv

/-! ## Putting together -/

section

variable [Compositional ok]

theorem throughout_of_flat {v : Value} (h : v.isObject = false) : (value v).Throughout ok :=
  (throughout_flat h).mpr (Compositional.flat h)

theorem throughout_undefined : (value .undefined).Throughout ok := throughout_of_flat rfl

theorem throughout_of_items {items : List Value} (h : ∀ v ∈ items, (value v).Throughout ok) :
    (value (.list items)).Throughout ok :=
  throughout_list.mpr ⟨Compositional.list items, h⟩

theorem throughout_of_entries {entries : List (String × Value)}
    (hkeys : (Entries.keys entries).Nodup) (h : ∀ e ∈ entries, (value e.2).Throughout ok) :
    (value (.map entries)).Throughout ok :=
  throughout_map.mpr ⟨Compositional.map hkeys, h⟩

theorem throughout_of_record {r : Record} (h : (record r).Throughout ok) :
    (value (.record r)).Throughout ok :=
  throughout_value_record.mpr ⟨Compositional.record r, h⟩

/-- A field type without types or values in it is in order. -/
theorem throughout_of_direct_eq_nil {F : FieldType} (hF : F.TagDeclared)
    (h : (fieldType F).direct = []) : (fieldType F).Throughout ok := by
  rw [throughout_iff, h]
  exact ⟨Compositional.fieldType hF, List.forall_mem_nil _⟩

theorem throughout_getD {v : Value} (hv : (value v).Throughout ok) (key : String) :
    (value (v.getD key)).Throughout ok := by
  rw [Value.getD]
  cases hx : v.get? key with
  | none => exact throughout_undefined
  | some x => exact throughout_of_get? hv hx

theorem throughout_defaultValue {F : FieldType} (hF : (fieldType F).Throughout ok) :
    (value F.defaultValue).Throughout ok := by
  cases F with
  | any | union => exact throughout_undefined
  | bool d | num d | str d => cases d <;> exact throughout_of_flat rfl
  | record T d =>
    cases d with
    | none => exact throughout_undefined
    | some r => exact throughout_of_record ((throughout_fieldType_record.mp hF).2.2 r rfl)
  | optional inner d => exact (throughout_fieldType_optional.mp hF).2.2
  | enum members d => exact (throughout_fieldType_enum.mp hF).2.1

theorem throughout_orDefault {F : FieldType} {v : Value} (hF : (fieldType F).Throughout ok)
    (hv : (value v).Throughout ok) : (value (F.orDefault v)).Throughout ok := by
  rw [FieldType.orDefault]
  split
  · exact throughout_defaultValue hF
  · exact hv

end

/-! ## Reading and building -/

section

variable [Invariant ok]

private theorem throughout_of_build_of_fields {T : RecordType} {v : Value} {r : Record}
    (hT : (recordType T).Throughout ok) (hv : (value v).Throughout ok) (hr : T.build v = .ok r)
    (hread : ∀ f ∈ T.schema, ∀ {x y : Value}, (fieldType f.2).Throughout ok →
      (value x).Throughout ok → f.2.read x = .ok y → (value y).Throughout ok) :
    (record r).Throughout ok := by
  have hok : ok (record r) := Invariant.build hr
  obtain ⟨fields, hfields, rfl⟩ := RecordType.build_eq_ok_iff.mp hr
  refine throughout_record.mpr ⟨hok, hT, ?_⟩
  intro e he
  obtain ⟨f, hf, hx⟩ := exists_field_of_mem_readFields hfields he
  have hF := (throughout_recordType.mp hT).2.1 f hf
  exact hread f hf hF (throughout_orDefault hF (throughout_getD hv _))
    (FieldType.readField_eq_ok_iff.mp hx)

/-- **Reading keeps an invariant**: what comes out is a part of what went in, a default, or a record
built from these. -/
theorem throughout_of_read {F : FieldType} {v w : Value} (hF : (fieldType F).Throughout ok)
    (hv : (value v).Throughout ok) (h : F.read v = .ok w) : (value w).Throughout ok := by
  induction F using FieldType.induction generalizing v w with
  | any => rwa [FieldType.read_any_eq_ok_iff.mp h]
  | bool d => rwa [(FieldType.read_bool_eq_ok_iff.mp h).1]
  | num d => rwa [(FieldType.read_num_eq_ok_iff.mp h).1]
  | str d => rwa [(FieldType.read_str_eq_ok_iff.mp h).1]
  | record T d ih =>
    -- Either the value is kept, or a record is built by the field types of the schema.
    have hconvert := RecordType.convert_eq_ok_iff.mp (FieldType.read_record_eq_ok_iff.mp h).2
    split at hconvert
    · rwa [hconvert]
    · obtain ⟨r, hr, rfl⟩ := hconvert
      have hT := (throughout_fieldType_record.mp hF).2.1
      exact throughout_of_record (throughout_of_build_of_fields hT hv hr ih)
  | optional inner d ih =>
    rw [FieldType.read_optional_eq_ok_iff] at h
    have hx := throughout_orDefault hF hv
    split at h
    · rwa [h]
    · exact ih (throughout_fieldType_optional.mp hF).2.1 hx h
  | enum members d =>
    rw [(FieldType.read_enum_eq_ok_iff.mp h).1]
    exact throughout_orDefault hF hv
  | union tag branches fallback ih =>
    obtain ⟨t, T, -, hT, hconvert⟩ := FieldType.read_union_eq_ok_iff.mp h
    have hmem := RecordType.mem_candidates_of_select? hT
    rw [RecordType.convert_eq_ok_iff] at hconvert
    split at hconvert
    · rwa [hconvert]
    · obtain ⟨r, hr, rfl⟩ := hconvert
      have hT := (throughout_fieldType_union.mp hF).2 T hmem
      exact throughout_of_record (throughout_of_build_of_fields hT hv hr (ih T hmem))

theorem throughout_of_readField {F : FieldType} {key : String} {v w : Value}
    (hF : (fieldType F).Throughout ok) (hv : (value v).Throughout ok)
    (h : F.readField key v = .ok w) : (value w).Throughout ok :=
  throughout_of_read hF (throughout_orDefault hF hv) (FieldType.readField_eq_ok_iff.mp h)

theorem throughout_of_construct {T : RecordType} {v : Value} {r : Record}
    (hT : (recordType T).Throughout ok) (hv : (value v).Throughout ok)
    (h : T.construct v = .ok r) : (record r).Throughout ok :=
  throughout_of_build_of_fields hT hv (RecordType.construct_eq_ok_iff.mp h).2
    fun _ _ _ _ hF hx hy ↦ throughout_of_read hF hx hy

/-! ## Writing -/

/-- **A write keeps an invariant.** -/
theorem throughout_of_set {r r' : Record} {key : String} {v : Value}
    (hr : (record r).Throughout ok) (hv : (value v).Throughout ok) (h : r.set key v = .ok r') :
    (record r').Throughout ok := by
  obtain ⟨hself, hT, hfields⟩ := throughout_record.mp hr
  have hself' := Invariant.set hself h
  obtain ⟨F, x, hF, hx, rfl⟩ := Record.set_eq_ok_iff.mp h
  have hfield := throughout_of_readField (throughout_of_field? hT hF) hv hx
  exact throughout_record.mpr ⟨hself', hT, throughout_of_mem_put hfields hfield⟩

theorem throughout_toDraft {r : Record} (hr : (record r).Throughout ok) :
    (record r.toDraft).Throughout ok := by
  obtain ⟨hself, hT, hfields⟩ := throughout_record.mp hr
  exact throughout_record.mpr ⟨Invariant.toDraft hself, hT, hfields⟩

theorem throughout_commit {r : Record} (hr : (record r).Throughout ok) :
    (record r.commit).Throughout ok := by
  obtain ⟨hself, hT, hfields⟩ := throughout_record.mp hr
  exact throughout_record.mpr ⟨Invariant.commit hself, hT, hfields⟩

/-! ### Along a path -/

/-- A nested write keeps an invariant: each level that it passes is put back through a write. -/
theorem throughout_of_value_setIn {whole path : List String} {target v w : Value}
    (htarget : (value target).Throughout ok) (hv : (value v).Throughout ok)
    (h : target.setIn whole path v = .ok w) : (value w).Throughout ok := by
  induction path generalizing whole target w with
  | nil =>
    cases h
    exact hv
  | cons key rest ih =>
    cases target with
    | record r =>
      obtain ⟨r', hr', rfl⟩ := map_eq_ok_iff.mp h
      obtain ⟨-, x, hx, hset⟩ := Record.update_eq_ok_iff.mp hr'
      have hr := (throughout_value_record.mp htarget).2
      have hfield := ih (throughout_getD (v := .record r) htarget key) hx
      exact throughout_of_record (throughout_of_set hr hfield hset)
    | map entries =>
      obtain ⟨x, hx, rfl⟩ := map_eq_ok_iff.mp h
      obtain ⟨hself, hentries⟩ := throughout_map.mp htarget
      have hentry := ih (throughout_getD (v := .map entries) htarget key) hx
      exact throughout_map.mpr
        ⟨Invariant.put hself key x, throughout_of_mem_put hentries hentry⟩
    | undefined | null =>
      -- What is missing on the way becomes a map with one key.
      obtain ⟨x, hx, rfl⟩ := map_eq_ok_iff.mp h
      have hentry := ih throughout_undefined hx
      exact throughout_of_entries (by simp) (List.forall_mem_singleton.mpr hentry)
    | _ => cases h

theorem throughout_of_setIn {r r' : Record} {path : List String} {v : Value}
    (hr : (record r).Throughout ok) (hv : (value v).Throughout ok) (h : r.setIn path v = .ok r') :
    (record r').Throughout ok := by
  cases path with
  | nil => cases h
  | cons key rest =>
    have hw : (Value.record r).setIn [] (key :: rest) v = .ok (.record r') := by
      rw [Value.setIn_record, h]
      rfl
    have hvalue := throughout_of_value_setIn (throughout_of_record hr) hv hw
    exact (throughout_value_record.mp hvalue).2

end

/-! ## Numbering fresh storage -/

section

variable [Storageless ok]

theorem throughout_settle {v : Value} (hv : (value v).Throughout ok) (next : Nat) :
    (value (v.settle next).1).Throughout ok := by
  induction v using Value.induction generalizing next with
  | flat v h => rwa [Value.settle_of_not_object h]
  | list items ih =>
    refine throughout_of_items fun x hx ↦ ?_
    obtain ⟨w, hw, n, rfl⟩ := mem_settleItems hx
    exact ih w hw ((throughout_list.mp hv).2 w hw) n
  | map entries ih =>
    obtain ⟨hself, hentries⟩ := throughout_map.mp hv
    refine throughout_map.mpr ⟨Storageless.settleEntries hself next, fun e he ↦ ?_⟩
    obtain ⟨e', he', n, hn⟩ := mem_settleEntries he
    rw [hn]
    exact ih e' he' (hentries e' he') n
  | record r ih =>
    obtain ⟨hself, hT, hfields⟩ := throughout_record.mp (throughout_value_record.mp hv).2
    have hself' := Storageless.settle hself next
    refine throughout_of_record ?_
    rcases r.settle_cases next with hr | ⟨-, hr⟩
    · rw [hr]
      exact (throughout_value_record.mp hv).2
    · rw [hr] at hself' ⊢
      refine throughout_record.mpr ⟨hself', hT, fun e he ↦ ?_⟩
      obtain ⟨e', he', n, hn⟩ := mem_settleEntries he
      rw [hn]
      exact ih e' he' (hfields e' he') n

theorem throughout_fieldType_settle {F : FieldType} (hF : (fieldType F).Throughout ok)
    (next : Nat) : (fieldType (F.settle next).1).Throughout ok := by
  cases F with
  | optional inner d =>
    obtain ⟨-, hinner, hd⟩ := throughout_fieldType_optional.mp hF
    exact throughout_fieldType_optional.mpr
      ⟨Compositional.fieldType trivial, hinner, throughout_settle hd next⟩
  | _ => exact hF

end

end Schemata
