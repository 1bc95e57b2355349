import Schemata.Proofs.Sharing

/-!
# The numbers of new storages

What an operation makes gets its numbers when a session takes it in, from the supply on. Which
numbers these are should not matter to anything that comes later, and neither should it matter
whether they were given out already: no record that the session had before has one of them.

To say this, the numbers from `next` on are taken away again (`Value.unnumbered`). Settling from
`next` on does nothing but put such numbers in (`Value.unnumbered_settle`). Where everything that a
field type refers to has its number below `next` (`Part.Numbered`), the field type reads a value
without its later numbers as it reads the value itself, up to these numbers, and with the same
errors (`FieldType.readsUnnumbered`). The same goes for what writes through field types, down to
nested writes (`Record.setIn_unnumbered`).
-/

namespace Schemata

mutual

/-- The value without the storage numbers from `next` on. -/
def Value.unnumbered (next : Nat) : Value → Value
  | .list items => .list (unnumberedItems next items)
  | .map entries => .map (unnumberedEntries next entries)
  | .record r => .record (r.unnumbered next)
  | v => v
termination_by structural v => v

/-- The record without the storage numbers from `next` on, its own and those in its fields. -/
def Record.unnumbered (next : Nat) : Record → Record
  | ⟨T, i, fields, draft⟩ => ⟨T, i.filter (· < next), unnumberedEntries next fields, draft⟩
termination_by structural r => r

/-- The items of a list without the storage numbers from `next` on. -/
def unnumberedItems (next : Nat) : List Value → List Value
  | [] => []
  | v :: rest => v.unnumbered next :: unnumberedItems next rest
termination_by structural items => items

/-- The entries of a map or of a record without the storage numbers from `next` on. -/
def unnumberedEntries (next : Nat) : List (String × Value) → List (String × Value)
  | [] => []
  | (key, v) :: rest => (key, v.unnumbered next) :: unnumberedEntries next rest
termination_by structural entries => entries

end

variable {next : Nat}

theorem unnumberedItems_eq_map (items : List Value) :
    unnumberedItems next items = items.map (·.unnumbered next) := by
  induction items with
  | nil => rfl
  | cons v rest ih => rw [unnumberedItems, ih, List.map_cons]

theorem unnumberedEntries_eq_map (entries : List (String × Value)) :
    unnumberedEntries next entries = entries.map fun e ↦ (e.1, e.2.unnumbered next) := by
  induction entries with
  | nil => rfl
  | cons e rest ih => rw [unnumberedEntries, ih, List.map_cons]

namespace Record

variable (r : Record)

@[simp] theorem type_unnumbered : (r.unnumbered next).type = r.type := by
  obtain ⟨T, i, fields, draft⟩ := r
  rfl

@[simp] theorem storage_unnumbered :
    (r.unnumbered next).storage = r.storage.filter (· < next) := by
  obtain ⟨T, i, fields, draft⟩ := r
  rfl

@[simp] theorem fields_unnumbered :
    (r.unnumbered next).fields = r.fields.map fun e ↦ (e.1, e.2.unnumbered next) := by
  obtain ⟨T, i, fields, draft⟩ := r
  exact unnumberedEntries_eq_map fields

@[simp] theorem draft_unnumbered : (r.unnumbered next).draft = r.draft := by
  obtain ⟨T, i, fields, draft⟩ := r
  rfl

end Record

/-! ## What the numbers do not decide -/

namespace Value

variable (v : Value)

theorem unnumbered_of_not_object {v : Value} (h : v.isObject = false) : v.unnumbered next = v := by
  cases v with
  | list | map | record => cases h
  | _ => rfl

theorem keepsData_unnumbered : KeepsData (unnumbered next) (Record.unnumbered next) where
  flat _ h := unnumbered_of_not_object h
  list items := congrArg Value.list (unnumberedItems_eq_map items)
  map entries := congrArg Value.map (unnumberedEntries_eq_map entries)
  record _ := rfl
  fields r := r.fields_unnumbered
  id r := by rw [Record.type_unnumbered]
  label r := by rw [Record.type_unnumbered]

@[simp] theorem isInstanceOf_unnumbered (T : RecordType) :
    (v.unnumbered next).isInstanceOf T = v.isInstanceOf T := by
  cases v with
  | record r => rw [unnumbered, isInstanceOf, Record.isInstanceOf, Record.type_unnumbered]; rfl
  | _ => rfl

/-- Contents know of no numbers. -/
@[simp] theorem contents_unnumbered : (v.unnumbered next).contents = v.contents := by
  induction v using Value.induction with
  | flat v h => rw [unnumbered_of_not_object h]
  | list items ih =>
    rw [unnumbered, contents, contents, contentsItems_eq_map, contentsItems_eq_map,
      unnumberedItems_eq_map, List.map_map]
    exact congrArg list (List.map_congr_left ih)
  | map entries ih =>
    rw [unnumbered, contents, contents, contentsEntries_eq_map, contentsEntries_eq_map,
      unnumberedEntries_eq_map, List.map_map]
    exact congrArg map (List.map_congr_left fun e he ↦ congrArg (e.1, ·) (ih e he))
  | record r ih =>
    obtain ⟨T, i, fields, draft⟩ := r
    rw [unnumbered, contents, contents, Record.unnumbered, Record.contents, Record.contents,
      contentsEntries_eq_map, contentsEntries_eq_map, unnumberedEntries_eq_map, List.map_map]
    refine congrArg (fun fields ↦ record ⟨T, none, fields, false⟩) ?_
    exact List.map_congr_left fun e he ↦ congrArg (e.1, ·) (ih e he)

/-- **Settling puts in new numbers only.** -/
theorem unnumbered_settle {m : Nat} (hle : next ≤ m) :
    (v.settle m).1.unnumbered next = v.unnumbered next := by
  induction v using Value.induction generalizing m with
  | flat v h => rw [settle_of_not_object h]
  | list items ih =>
    rw [settle_list, unnumbered, unnumbered, unnumberedItems_eq_map, unnumberedItems_eq_map,
      map_settleItems (fun v hv n hn ↦ ih v hv hn) hle]
  | map entries ih =>
    rw [settle_map, unnumbered, unnumbered, unnumberedEntries_eq_map, unnumberedEntries_eq_map,
      map_settleEntries (fun e he n hn ↦ ih e he hn) hle]
  | record r ih =>
    refine congrArg Value.record ?_
    rcases r.settle_cases m with h | ⟨hfresh, h⟩
    · rw [h]
    · obtain ⟨T, i, fields, draft⟩ := r
      obtain rfl : i = none := hfresh
      have hnew : (some m).filter (· < next) = none := by simp [hle]
      rw [h, Record.unnumbered, Record.unnumbered, unnumberedEntries_eq_map,
        unnumberedEntries_eq_map, hnew,
        map_settleEntries (fun e he n hn ↦ ih e he hn) (Nat.le_succ_of_le hle)]
      rfl

end Value

@[simp] theorem Record.contents_unnumbered (r : Record) :
    (r.unnumbered next).contents = r.contents :=
  Value.record.inj (Value.record r).contents_unnumbered

theorem Record.unnumbered_settle (r : Record) {m : Nat} (hle : next ≤ m) :
    (r.settle m).1.unnumbered next = r.unnumbered next :=
  Value.record.inj ((Value.record r).unnumbered_settle hle)

/-! ## Numbers below -/

namespace Part

/-- A record has a number below `next`. -/
def Numbered (next : Nat) : Part → Prop
  | record r => ∃ i, r.storage = some i ∧ i < next
  | _ => True

instance : Compositional (Numbered next) where
  flat _ := trivial
  list _ := trivial
  map _ := trivial
  record _ := trivial
  fieldType _ := trivial

/-- What is stored has numbers below those that are not in use. -/
theorem Throughout.numbered {σ : Store} {p : Part} (h : p.Throughout (Stored σ))
    (hσ : σ.Below next) : p.Throughout (Numbered next) := by
  refine h.imp fun q hq ↦ ?_
  cases q with
  | record r =>
    obtain ⟨i, hi, hstored⟩ := hq
    exact ⟨i, hi, hσ.lt hstored⟩
  | value | recordType | fieldType => trivial

end Part

open Schemata.Part

private theorem unnumberedEntries_eq_self {entries : List (String × Value)}
    (h : ∀ e ∈ entries, e.2.unnumbered next = e.2) :
    unnumberedEntries next entries = entries := by
  induction entries with
  | nil => rfl
  | cons e rest ih =>
    obtain ⟨hv, hrest⟩ := List.forall_mem_cons.mp h
    rw [unnumberedEntries, hv, ih hrest]

private theorem unnumberedItems_eq_self {items : List Value}
    (h : ∀ v ∈ items, v.unnumbered next = v) : unnumberedItems next items = items := by
  induction items with
  | nil => rfl
  | cons v rest ih =>
    obtain ⟨hv, hrest⟩ := List.forall_mem_cons.mp h
    rw [unnumberedItems, hv, ih hrest]

/-- A value that has no numbers from `next` on has none to lose. -/
theorem Value.unnumbered_eq_self {v : Value} (h : (value v).Throughout (Numbered next)) :
    v.unnumbered next = v := by
  induction v using Value.induction with
  | flat v hv => exact unnumbered_of_not_object hv
  | list items ih =>
    have hitems := (throughout_list.mp h).2
    rw [unnumbered, unnumberedItems_eq_self fun v hv ↦ ih v hv (hitems v hv)]
  | map entries ih =>
    have hentries := (throughout_map.mp h).2
    rw [unnumbered, unnumberedEntries_eq_self fun e he ↦ ih e he (hentries e he)]
  | record r ih =>
    obtain ⟨⟨i, hi, hlt⟩, -, hfields⟩ := throughout_record.mp (throughout_value_record.mp h).2
    have hkept : r.storage.filter (· < next) = r.storage := by
      rw [hi, Option.filter_some_pos (by simpa using hlt)]
    have hentries := unnumberedEntries_eq_self fun e he ↦ ih e he (hfields e he)
    obtain ⟨T, storage, fields, draft⟩ := r
    rw [unnumbered, Record.unnumbered, hentries, hkept]

/-- A record with a number below is not told from another one by later numbers. -/
theorem Record.identical_unnumbered {q : Record} (hq : Numbered next (.record q)) (r : Record) :
    q.identical (r.unnumbered next) = q.identical r := by
  obtain ⟨i, hi, hlt⟩ := hq
  rw [identical, identical, type_unnumbered, storage_unnumbered, hi]
  rcases r.storage with _ | j
  · rfl
  · by_cases hj : j < next
    · rw [Option.filter_some_pos (by simpa using hj)]
    · have hne : i ≠ j := by omega
      rw [Option.filter_some_neg (by simpa using hj)]
      simp [hne]

namespace Value

theorem same_unnumbered {m : Value} (hm : (value m).Throughout (Numbered next)) (v : Value) :
    m.same (v.unnumbered next) = m.same v := by
  cases v with
  | record r =>
    cases m with
    | record q => exact Record.identical_unnumbered (throughout_value_record.mp hm).2.self r
    | _ => rfl
  | list | map =>
    rw [FieldType.same_eq_equal rfl rfl, FieldType.same_eq_equal rfl rfl]
    exact KeepsData.refl.equal keepsData_unnumbered m _
  | _ => rfl

theorem isAmong_unnumbered {members : List Value}
    (hmembers : ∀ m ∈ members, (value m).Throughout (Numbered next)) (v : Value) :
    (v.unnumbered next).isAmong members = v.isAmong members := by
  rw [Bool.eq_iff_iff, isAmong, isAmong, List.any_eq_true, List.any_eq_true]
  refine exists_congr fun m ↦ and_congr_right fun hm ↦ ?_
  rw [same_unnumbered (hmembers m hm)]

end Value

/-! ## Reading -/

namespace FieldType

variable {F : FieldType}

theorem orDefault_unnumbered (hF : (fieldType F).Throughout (Numbered next)) (v : Value) :
    F.orDefault (v.unnumbered next) = (F.orDefault v).unnumbered next := by
  rw [orDefault, orDefault, Value.keepsData_unnumbered.isUndefined]
  split
  · exact (Value.unnumbered_eq_self (throughout_defaultValue hF)).symm
  · rfl

/-- The field type makes of a value without its later numbers what it makes of the value itself, up
to later numbers. -/
def ReadsUnnumbered (next : Nat) (F : FieldType) : Prop :=
  ∀ v : Value, F.read (v.unnumbered next) = (F.read v).map (·.unnumbered next)

theorem ReadsUnnumbered.readField (h : F.ReadsUnnumbered next)
    (hF : (fieldType F).Throughout (Numbered next)) (key : String) (v : Value) :
    F.readField key (v.unnumbered next) = (F.readField key v).map (·.unnumbered next) := by
  rw [FieldType.readField, orDefault_unnumbered hF, h, FieldType.readField, map_mapError]

end FieldType

private theorem readFields_unnumbered_of_forall {schema : List (String × FieldType)}
    (h : ∀ f ∈ schema, f.2.ReadsUnnumbered next)
    (hschema : ∀ f ∈ schema, (fieldType f.2).Throughout (Numbered next)) (v : Value) :
    readFields schema (v.unnumbered next) =
      (readFields schema v).map (unnumberedEntries next) := by
  induction schema with
  | nil => rfl
  | cons f rest ih =>
    obtain ⟨key, F⟩ := f
    obtain ⟨hF, hrest⟩ := List.forall_mem_cons.mp h
    obtain ⟨hnumbered, hschema⟩ := List.forall_mem_cons.mp hschema
    rw [readFields_cons, readFields_cons, Value.keepsData_unnumbered.getD, hF.readField hnumbered,
      ih hrest hschema]
    rcases F.readField key (v.getD key) with e | x
    · rfl
    · rcases readFields rest v with e | xs <;> rfl

namespace RecordType

variable {T : RecordType}

private theorem convert_unnumbered_of_forall (h : ∀ f ∈ T.schema, f.2.ReadsUnnumbered next)
    (hT : (recordType T).Throughout (Numbered next)) (v : Value) :
    T.convert (v.unnumbered next) = (T.convert v).map (·.unnumbered next) := by
  have hschema := (throughout_recordType.mp hT).2.1
  rw [convert_eq, convert_eq, Value.isInstanceOf_unnumbered]
  split
  · rfl
  · rw [build, build, readFields_unnumbered_of_forall h hschema, map_map, map_map, map_map, map_map]
    rfl

end RecordType

/-- **Reading disregards later numbers.** -/
theorem FieldType.readsUnnumbered {F : FieldType} (hF : (fieldType F).Throughout (Numbered next)) :
    F.ReadsUnnumbered next := by
  intro v
  have hdata : Value.KeepsData (Value.unnumbered next) (Record.unnumbered next) :=
    Value.keepsData_unnumbered
  induction F using FieldType.induction generalizing v with
  | any => rfl
  | bool d =>
    rw [read_bool, read_bool, hdata.bool?, hdata.display]
    split <;> rfl
  | num d =>
    rw [read_num, read_num, hdata.num?, hdata.display]
    split <;> rfl
  | str d =>
    rw [read_str, read_str, hdata.str?, hdata.display]
    split <;> rfl
  | record T d ih =>
    have hT := (throughout_fieldType_record.mp hF).2.1
    have hschema := (throughout_recordType.mp hT).2.1
    rw [read_record, read_record, hdata.isSome_entries?, hdata.isSome_record?, hdata.display,
      RecordType.convert_unnumbered_of_forall (fun f hf ↦ ih f hf (hschema f hf)) hT]
    split
    · rw [map_mapError]
    · rfl
  | optional inner d ih =>
    have hinner := (throughout_fieldType_optional.mp hF).2.1
    rw [read_optional, read_optional, orDefault_unnumbered hF, hdata.isNullish,
      hdata.display, ih hinner]
    split
    · rfl
    · rw [map_mapError]
  | enum members d =>
    have hmembers := (throughout_fieldType_enum.mp hF).2.2
    rw [read_enum, read_enum, orDefault_unnumbered hF, Value.isAmong_unnumbered hmembers,
      hdata.display]
    split <;> rfl
  | union tag branches fallback ih =>
    rw [read_union, read_union, hdata.isObject, hdata.get?, hdata.display]
    split
    · rcases v.get? tag with _ | t
      · rfl
      · simp only [Option.map_some, hdata.display]
        rcases hT : RecordType.select? branches fallback t.display with _ | T
        · rfl
        · have hmem := RecordType.mem_candidates_of_select? hT
          have hnumbered := (throughout_fieldType_union.mp hF).2 T hmem
          have hschema := (throughout_recordType.mp hnumbered).2.1
          simp only [RecordType.convert_unnumbered_of_forall
            (fun f hf ↦ ih T hmem f hf (hschema f hf)) hnumbered, map_mapError]
    · rfl

/-! ## Writing -/

private theorem put_unnumbered {entries : List (String × Value)}
    (h : ∀ e ∈ entries, (value e.2).Throughout (Numbered next)) (key : String) (x : Value) :
    unnumberedEntries next (Entries.put entries key x) =
      Entries.put entries key (x.unnumbered next) := by
  have hentries := unnumberedEntries_eq_self fun e he ↦ Value.unnumbered_eq_self (h e he)
  rw [unnumberedEntries_eq_map] at hentries
  rw [unnumberedEntries_eq_map, Entries.map_put, hentries]

theorem Record.set_unnumbered {r : Record} (hr : (record r).Throughout (Numbered next))
    (key : String) (v : Value) :
    r.set key (v.unnumbered next) = (r.set key v).map (·.unnumbered next) := by
  obtain ⟨-, hT, hfields⟩ := throughout_record.mp hr
  rw [set_eq, set_eq]
  rcases hF : r.type.field? key with _ | F
  · rfl
  · have hnumbered := throughout_of_field? hT hF
    have hread := (FieldType.readsUnnumbered hnumbered).readField hnumbered key v
    simp only [hread, map_map, unnumbered, put_unnumbered hfields]
    rfl

theorem Record.update_unnumbered {r : Record} (hr : (record r).Throughout (Numbered next))
    (key : String) {change change' : Value → Except RecordError Value}
    (h : change' (r.getD key) = (change (r.getD key)).map (·.unnumbered next)) :
    r.update key change' = (r.update key change).map (·.unnumbered next) := by
  rcases hF : r.type.field? key with _ | F
  · rw [update, update, hF]
    rfl
  · rw [update_of_field? hF, update_of_field? hF, h, map_bind, bind_map]
    exact congrArg _ (funext fun x ↦ set_unnumbered hr key x)

/-- A nested write disregards later numbers in the value that is written. -/
theorem Value.setIn_unnumbered {x : Value} (hx : (value x).Throughout (Numbered next))
    (whole path : List String) (v : Value) :
    x.setIn whole path (v.unnumbered next) =
      (x.setIn whole path v).map (·.unnumbered next) := by
  induction path generalizing whole x with
  | nil => rfl
  | cons key rest ih =>
    cases x with
    | record r =>
      have hr := (throughout_value_record.mp hx).2
      have hchild : (value (r.getD key)).Throughout (Numbered next) := throughout_getD hx key
      have hupdate : r.update key (fun x ↦ x.setIn (key :: rest) rest (v.unnumbered next)) =
          (r.update key fun x ↦ x.setIn (key :: rest) rest v).map (·.unnumbered next) := by
        apply Record.update_unnumbered hr
        exact ih hchild (key :: rest)
      rw [setIn, setIn, hupdate, map_map, map_map]
      rfl
    | map entries =>
      have hchange := ih (throughout_getD (v := .map entries) hx key) whole
      have hput := put_unnumbered (throughout_map.mp hx).2 key
      refine (congrArg (Except.map fun x ↦ Value.map (Entries.put entries key x)) hchange).trans ?_
      rw [setIn, map_map, map_map]
      simp only [unnumbered, hput]
      rfl
    | undefined | null =>
      rw [setIn, setIn, ih throughout_undefined whole, map_map, map_map]
      rfl
    | _ => rfl

theorem Record.setIn_unnumbered {r : Record} (hr : (record r).Throughout (Numbered next))
    (path : List String) (v : Value) :
    r.setIn path (v.unnumbered next) = (r.setIn path v).map (·.unnumbered next) := by
  cases path with
  | nil => rfl
  | cons key rest =>
    have hvalue : (value (.record r)).Throughout (Numbered next) :=
      throughout_value_record.mpr ⟨trivial, hr⟩
    have hchild : (value (r.getD key)).Throughout (Numbered next) := throughout_getD hvalue key
    rw [setIn, setIn]
    apply update_unnumbered hr
    exact Value.setIn_unnumbered hchild (key :: rest) rest v

/-- **A nested write disregards numbering.** Whether the value that is written was numbered before,
from `next` on, makes no difference beyond these numbers. -/
theorem Record.setIn_settle {r : Record} (hr : (record r).Throughout (Numbered next))
    (path : List String) (v : Value) {m : Nat} (hle : next ≤ m) :
    (r.setIn path (v.settle m).1).map (·.unnumbered next) =
      (r.setIn path v).map (·.unnumbered next) := by
  rw [← setIn_unnumbered hr, ← setIn_unnumbered hr, Value.unnumbered_settle v hle]

end Schemata
