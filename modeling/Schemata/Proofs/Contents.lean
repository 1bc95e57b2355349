import Schemata.Proofs.Induction
import Schemata.Storage
import Schemata.Value.Equality

/-!
# Contents of a value

Two records that were built apart can still say the same: they have the same type and, under the
same keys, the same values, compared in the same way. The *contents* of a value are what is left of
it when the storages and draft flags of its records are forgotten, so values say the same if their
contents are equal.

Texts, JSON forms, kinds and instance-of tests depend on contents alone (`display_contents`,
`toJson_contents`, `equal_contents`), as they would on whatever else keeps the data of a value
(`Value.KeepsData`), and numbering the fresh storages of a value keeps its contents
(`contents_settle`). Together these carry a fact about a value to the value as a session keeps it.
-/

namespace Schemata

mutual

/-- The value without the storages and draft flags of its records. -/
def Value.contents : Value → Value
  | .list items => .list (contentsItems items)
  | .map entries => .map (contentsEntries entries)
  | .record r => .record r.contents
  | v => v
termination_by structural v => v

/-- The record without storages and draft flags. -/
def Record.contents : Record → Record
  | ⟨T, _, fields, _⟩ => ⟨T, none, contentsEntries fields, false⟩
termination_by structural r => r

/-- The contents of the items of a list. -/
def contentsItems : List Value → List Value
  | [] => []
  | v :: rest => v.contents :: contentsItems rest
termination_by structural items => items

/-- The contents of the entries of a map or of a record. -/
def contentsEntries : List (String × Value) → List (String × Value)
  | [] => []
  | (key, v) :: rest => (key, v.contents) :: contentsEntries rest
termination_by structural entries => entries

end

theorem contentsItems_eq_map (items : List Value) : contentsItems items = items.map .contents := by
  induction items with
  | nil => rfl
  | cons v rest ih => rw [contentsItems, ih, List.map_cons]

theorem contentsEntries_eq_map (entries : List (String × Value)) :
    contentsEntries entries = entries.map fun e ↦ (e.1, e.2.contents) := by
  induction entries with
  | nil => rfl
  | cons e rest ih =>
    obtain ⟨key, v⟩ := e
    rw [contentsEntries, ih, List.map_cons]

@[simp] theorem keys_contentsEntries (entries : List (String × Value)) :
    Entries.keys (contentsEntries entries) = Entries.keys entries := by
  rw [contentsEntries_eq_map, Entries.keys_map]

theorem get?_contentsEntries (entries : List (String × Value)) (key : String) :
    Entries.get? (contentsEntries entries) key = (Entries.get? entries key).map .contents := by
  rw [contentsEntries_eq_map, Entries.get?_map]

@[simp] theorem Record.type_contents (r : Record) : r.contents.type = r.type := by
  obtain ⟨T, i, fields, draft⟩ := r
  rfl

@[simp] theorem Record.fields_contents (r : Record) :
    r.contents.fields = contentsEntries r.fields := by
  obtain ⟨T, i, fields, draft⟩ := r
  rfl

/-! ## What depends on the data alone -/

namespace Value

theorem isUndefined_iff {v : Value} : v.isUndefined = true ↔ v = .undefined := by
  cases v <;> simp [isUndefined]

theorem isUndefined_eq_false_iff {v : Value} : v.isUndefined = false ↔ v ≠ .undefined := by
  rw [ne_eq, ← isUndefined_iff, Bool.not_eq_true]

theorem itemsToJson_eq_map (items : List Value) : itemsToJson items = items.map toJson := by
  induction items with
  | nil => rfl
  | cons v rest ih => rw [itemsToJson, ih, List.map_cons]

theorem displayItems_eq_map (items : List Value) :
    displayItems items = items.map fun v ↦ if v.isNullish then "" else v.display := by
  induction items with
  | nil => rfl
  | cons v rest ih => rw [displayItems, ih, List.map_cons]

theorem toJson_record (r : Record) :
    (Value.record r).toJson = .object (entriesToJson r.fields) := by
  obtain ⟨T, i, fields, draft⟩ := r
  rfl

theorem equal_record (r s : Record) : (Value.record r).equal (.record s) =
    (r.type.identical s.type && r.fields.length == s.fields.length &&
      equalEntries r.fields s.fields) := by
  obtain ⟨T, i, fields, draft⟩ := r
  rfl

theorem equal_of_not_record {r : Record} {v : Value} (h : v.record? = none) :
    (Value.record r).equal v = false := by
  obtain ⟨T, i, fields, draft⟩ := r
  cases v with
  | record => cases h
  | _ => rfl

/-- The functions `f` and `h` go through values and records and leave their data as they are. What
they may change are the storages and draft flags of records and, beside identity and label, their
types. -/
structure KeepsData (f : Value → Value) (h : Record → Record) : Prop where
  flat : ∀ v : Value, v.isObject = false → f v = v
  list : ∀ items : List Value, f (.list items) = .list (items.map f)
  map : ∀ entries : List (String × Value),
    f (.map entries) = .map (entries.map fun e ↦ (e.1, f e.2))
  record : ∀ r : Record, f (.record r) = .record (h r)
  fields : ∀ r : Record, (h r).fields = r.fields.map fun e ↦ (e.1, f e.2)
  id : ∀ r : Record, (h r).type.id = r.type.id
  label : ∀ r : Record, (h r).type.label = r.type.label

namespace KeepsData

theorem refl : KeepsData (fun v ↦ v) fun r ↦ r where
  flat _ _ := rfl
  list items := congrArg Value.list (List.map_id items).symm
  map entries := congrArg Value.map (List.map_id entries).symm
  record _ := rfl
  fields r := (List.map_id r.fields).symm
  id _ := rfl
  label _ := rfl

variable {f g : Value → Value} {h k : Record → Record} (hf : KeepsData f h)
include hf

theorem isUndefined (v : Value) : (f v).isUndefined = v.isUndefined := by
  cases v with
  | list | map | record => simp only [hf.list, hf.map, hf.record, Value.isUndefined]
  | _ => rw [hf.flat _ rfl]

theorem isNullish (v : Value) : (f v).isNullish = v.isNullish := by
  cases v with
  | list | map | record => simp only [hf.list, hf.map, hf.record, Value.isNullish]
  | _ => rw [hf.flat _ rfl]

theorem get? (v : Value) (key : String) : (f v).get? key = (v.get? key).map f := by
  cases v with
  | map entries => rw [hf.map, Value.get?, Entries.get?_map, Value.get?]
  | record r =>
    rw [hf.record, Value.get?, Record.get?, hf.fields, Entries.get?_map, Value.get?, Record.get?]
  | list => rw [hf.list]; rfl
  | _ => rw [hf.flat _ rfl]; rfl

theorem getD (v : Value) (key : String) : (f v).getD key = f (v.getD key) := by
  rw [Value.getD, hf.get?, Value.getD]
  cases v.get? key with
  | none => exact (hf.flat .undefined rfl).symm
  | some x => rfl

theorem isObject (v : Value) : (f v).isObject = v.isObject := by
  cases v with
  | list | map | record => simp only [hf.list, hf.map, hf.record, Value.isObject]
  | _ => rw [hf.flat _ rfl]

theorem bool? (v : Value) : (f v).bool? = v.bool? := by
  cases v with
  | list | map | record => simp only [hf.list, hf.map, hf.record, Value.bool?]
  | _ => rw [hf.flat _ rfl]

theorem num? (v : Value) : (f v).num? = v.num? := by
  cases v with
  | list | map | record => simp only [hf.list, hf.map, hf.record, Value.num?]
  | _ => rw [hf.flat _ rfl]

theorem str? (v : Value) : (f v).str? = v.str? := by
  cases v with
  | list | map | record => simp only [hf.list, hf.map, hf.record, Value.str?]
  | _ => rw [hf.flat _ rfl]

theorem isSome_entries? (v : Value) : (f v).entries?.isSome = v.entries?.isSome := by
  cases v with
  | list | map | record => simp only [hf.list, hf.map, hf.record, Value.entries?, Option.isSome]
  | _ => rw [hf.flat _ rfl]

theorem isSome_record? (v : Value) : (f v).record?.isSome = v.record?.isSome := by
  cases v with
  | list | map | record => simp only [hf.list, hf.map, hf.record, Value.record?, Option.isSome]
  | _ => rw [hf.flat _ rfl]

private theorem entriesToJson_of_forall {entries : List (String × Value)}
    (ih : ∀ e ∈ entries, (f e.2).toJson = e.2.toJson) :
    entriesToJson (entries.map fun e ↦ (e.1, f e.2)) = entriesToJson entries := by
  induction entries with
  | nil => rfl
  | cons e rest ihrest =>
    obtain ⟨key, v⟩ := e
    obtain ⟨hv, hrest⟩ := List.forall_mem_cons.mp ih
    rw [List.map_cons, entriesToJson, entriesToJson, hf.isUndefined, ihrest hrest, hv]

theorem toJson (v : Value) : (f v).toJson = v.toJson := by
  induction v using Value.induction with
  | flat v hv => rw [hf.flat v hv]
  | list items ih =>
    rw [hf.list, Value.toJson, Value.toJson, itemsToJson_eq_map, itemsToJson_eq_map, List.map_map]
    exact congrArg Json.array (List.map_congr_left ih)
  | map entries ih => rw [hf.map, Value.toJson, Value.toJson, hf.entriesToJson_of_forall ih]
  | record r ih =>
    rw [hf.record, toJson_record, toJson_record, hf.fields, hf.entriesToJson_of_forall ih]

theorem display (v : Value) : (f v).display = v.display := by
  induction v using Value.induction with
  | flat v hv => rw [hf.flat v hv]
  | list items ih =>
    rw [hf.list, Value.display, Value.display, displayItems_eq_map, displayItems_eq_map,
      List.map_map]
    refine congrArg _ (List.map_congr_left fun v hv ↦ ?_)
    rw [Function.comp_apply, hf.isNullish, ih v hv]
  | map entries =>
    have hjson := hf.toJson (.map entries)
    rw [hf.map] at hjson ⊢
    rw [Value.display, Value.display, hjson]
  | record r =>
    rw [hf.record, Value.display, Value.display, Record.display, Record.display, hf.fields,
      hf.label, List.map_map]
    simp only [Function.comp_def, hf.toJson]

omit hf in
private theorem equalItems_of_forall {xs : List Value}
    (ih : ∀ x ∈ xs, ∀ v : Value, (f x).equal (g v) = x.equal v) (ys : List Value) :
    equalItems (xs.map f) (ys.map g) = equalItems xs ys := by
  induction xs generalizing ys with
  | nil => cases ys <;> rfl
  | cons x rest ihrest =>
    obtain ⟨hx, hrest⟩ := List.forall_mem_cons.mp ih
    cases ys with
    | nil => rfl
    | cons y more => rw [List.map_cons, List.map_cons, equalItems, equalItems, hx, ihrest hrest]

omit hf in
private theorem equalEntries_of_forall {xs : List (String × Value)}
    (ih : ∀ x ∈ xs, ∀ v : Value, (f x.2).equal (g v) = x.2.equal v) (ys : List (String × Value)) :
    equalEntries (xs.map fun e ↦ (e.1, f e.2)) (ys.map fun e ↦ (e.1, g e.2)) =
      equalEntries xs ys := by
  induction xs with
  | nil => rfl
  | cons x rest ihrest =>
    obtain ⟨key, x⟩ := x
    obtain ⟨hx, hrest⟩ := List.forall_mem_cons.mp ih
    rw [List.map_cons, equalEntries, equalEntries, ihrest hrest, Entries.get?_map]
    cases Entries.get? ys key with
    | none => rfl
    | some y => exact congrArg (· && equalEntries rest ys) (hx y)

/-- Equality looks at the data of its arguments. -/
theorem equal (hg : KeepsData g k) (x v : Value) : (f x).equal (g v) = x.equal v := by
  -- The induction is on the left argument, as the recursion of equality is.
  induction x using Value.induction generalizing v with
  | flat x hx =>
    rw [hf.flat x hx]
    cases x with
    | list | map | record => cases hx
    | _ =>
      cases v with
      | list items => rw [hg.list]; rfl
      | map entries => rw [hg.map]; rfl
      | record r => rw [hg.record]; rfl
      | _ => rw [hg.flat _ rfl]
  | list items ih =>
    cases v with
    | list ys =>
      rw [hf.list, hg.list]
      exact equalItems_of_forall ih ys
    | map entries => rw [hf.list, hg.map]; rfl
    | record r => rw [hf.list, hg.record]; rfl
    | _ => rw [hf.list, hg.flat _ rfl]; rfl
  | map entries ih =>
    cases v with
    | map ys =>
      rw [hf.map, hg.map, Value.equal, Value.equal, equalEntries_of_forall ih, List.length_map,
        List.length_map]
    | list ys => rw [hf.map, hg.list]; rfl
    | record r => rw [hf.map, hg.record]; rfl
    | _ => rw [hf.map, hg.flat _ rfl]; rfl
  | record r ih =>
    cases v with
    | record s =>
      rw [hf.record, hg.record, equal_record, equal_record, hf.fields, hg.fields,
        equalEntries_of_forall ih, List.length_map, List.length_map, RecordType.identical,
        RecordType.identical, hf.id, hg.id]
    | list ys => rw [hf.record, hg.list, equal_of_not_record rfl, equal_of_not_record rfl]
    | map ys => rw [hf.record, hg.map, equal_of_not_record rfl, equal_of_not_record rfl]
    | _ => rw [hf.record, hg.flat _ rfl, equal_of_not_record rfl, equal_of_not_record rfl]

end KeepsData

theorem contents_of_not_object {v : Value} (h : v.isObject = false) : v.contents = v := by
  cases v with
  | list | map | record => cases h
  | _ => rfl

theorem keepsData_contents : KeepsData contents Record.contents where
  flat _ h := contents_of_not_object h
  list items := congrArg Value.list (contentsItems_eq_map items)
  map entries := congrArg Value.map (contentsEntries_eq_map entries)
  record _ := rfl
  fields r := r.fields_contents.trans (contentsEntries_eq_map r.fields)
  id r := congrArg RecordType.id r.type_contents
  label r := congrArg RecordType.label r.type_contents

@[simp] theorem isUndefined_contents (v : Value) : v.contents.isUndefined = v.isUndefined :=
  keepsData_contents.isUndefined v

@[simp] theorem isNullish_contents (v : Value) : v.contents.isNullish = v.isNullish :=
  keepsData_contents.isNullish v

@[simp] theorem isInstanceOf_contents (v : Value) (T : RecordType) :
    v.contents.isInstanceOf T = v.isInstanceOf T := by
  cases v with
  | record r => simp [contents, isInstanceOf, Record.isInstanceOf]
  | _ => rfl

theorem get?_contents (v : Value) (key : String) :
    v.contents.get? key = (v.get? key).map .contents :=
  keepsData_contents.get? v key

@[simp] theorem toJson_contents (v : Value) : v.contents.toJson = v.toJson :=
  keepsData_contents.toJson v

@[simp] theorem display_contents (v : Value) : v.contents.display = v.display :=
  keepsData_contents.display v

/-- Equality looks at the contents of its right argument. -/
theorem equal_contents (x v : Value) : x.equal v.contents = x.equal v :=
  KeepsData.refl.equal keepsData_contents x v

end Value

/-! ## Settling

Settling hands a supply of numbers through a value, and where a part is reached in this order is of
no interest here: what comes out for a part is the part, settled from some number on. -/

theorem settleItems_cons (v : Value) (rest : List Value) (next : Nat) :
    settleItems (v :: rest) next = ((v.settle next).1 :: (settleItems rest (v.settle next).2).1,
      (settleItems rest (v.settle next).2).2) := rfl

theorem settleEntries_cons (key : String) (v : Value) (rest : List (String × Value)) (next : Nat) :
    settleEntries ((key, v) :: rest) next =
      ((key, (v.settle next).1) :: (settleEntries rest (v.settle next).2).1,
        (settleEntries rest (v.settle next).2).2) := rfl

theorem Value.settle_list (items : List Value) (next : Nat) :
    (Value.list items).settle next =
      (.list (settleItems items next).1, (settleItems items next).2) := rfl

theorem Value.settle_map (entries : List (String × Value)) (next : Nat) :
    (Value.map entries).settle next =
      (.map (settleEntries entries next).1, (settleEntries entries next).2) := rfl

theorem Value.settle_record (r : Record) (next : Nat) :
    (Value.record r).settle next = (.record (r.settle next).1, (r.settle next).2) := rfl

theorem Record.settle_of_fresh {r : Record} (h : r.storage = none) (next : Nat) :
    r.settle next = (⟨r.type, some next, (settleEntries r.fields (next + 1)).1, r.draft⟩,
      (settleEntries r.fields (next + 1)).2) := by
  obtain ⟨T, i, fields, draft⟩ := r
  obtain rfl : i = none := h
  rfl

theorem Record.settle_cases (r : Record) (next : Nat) :
    (r.settle next).1 = r ∨ r.storage = none ∧
      (r.settle next).1 =
        ⟨r.type, some next, (settleEntries r.fields (next + 1)).1, r.draft⟩ := by
  cases h : r.storage with
  | none => exact Or.inr ⟨rfl, by rw [settle_of_fresh h]⟩
  | some i => exact Or.inl (by rw [settle_of_storage (by simp [h])])

theorem Value.settle_of_not_object {v : Value} (h : v.isObject = false) (next : Nat) :
    v.settle next = (v, next) := by
  cases v with
  | list | map | record => cases h
  | _ => rfl

theorem mem_settleItems {items : List Value} {next : Nat} {v : Value}
    (h : v ∈ (settleItems items next).1) : ∃ w ∈ items, ∃ n, v = (w.settle n).1 := by
  induction items generalizing next with
  | nil => cases h
  | cons w rest ih =>
    rw [settleItems_cons] at h
    rcases List.mem_cons.mp h with rfl | h
    · exact ⟨w, List.mem_cons_self, next, rfl⟩
    · obtain ⟨u, hu, n, rfl⟩ := ih h
      exact ⟨u, List.mem_cons_of_mem _ hu, n, rfl⟩

private theorem le_settleItems {items : List Value}
    (h : ∀ v ∈ items, ∀ n, n ≤ (v.settle n).2) (next : Nat) :
    next ≤ (settleItems items next).2 := by
  induction items generalizing next with
  | nil => exact Nat.le_refl next
  | cons v rest ih =>
    obtain ⟨hv, hrest⟩ := List.forall_mem_cons.mp h
    exact Nat.le_trans (hv next) (ih hrest _)

private theorem le_settleEntries {entries : List (String × Value)}
    (h : ∀ e ∈ entries, ∀ n, n ≤ (e.2.settle n).2) (next : Nat) :
    next ≤ (settleEntries entries next).2 := by
  induction entries generalizing next with
  | nil => exact Nat.le_refl next
  | cons e rest ih =>
    obtain ⟨key, v⟩ := e
    obtain ⟨hv, hrest⟩ := List.forall_mem_cons.mp h
    exact Nat.le_trans (hv next) (ih hrest _)

/-- Settling takes numbers from the supply and puts none back. -/
theorem Value.le_settle (v : Value) (next : Nat) : next ≤ (v.settle next).2 := by
  induction v using Value.induction generalizing next with
  | flat v h => exact Nat.le_of_eq (by rw [settle_of_not_object h])
  | list items ih => exact le_settleItems ih next
  | map entries ih => exact le_settleEntries ih next
  | record r ih =>
    change next ≤ (r.settle next).2
    cases h : r.storage with
    | none =>
      rw [Record.settle_of_fresh h]
      exact Nat.le_trans (Nat.le_succ next) (le_settleEntries ih _)
    | some i =>
      have hstorage : r.storage.isSome = true := by simp [h]
      exact Nat.le_of_eq (by rw [Record.settle_of_storage hstorage])

theorem FieldType.le_settle (F : FieldType) (next : Nat) : next ≤ (F.settle next).2 := by
  cases F with
  | optional inner d => exact d.le_settle next
  | _ => exact Nat.le_refl next

@[simp] theorem keys_settleEntries (entries : List (String × Value)) (next : Nat) :
    Entries.keys (settleEntries entries next).1 = Entries.keys entries := by
  induction entries generalizing next with
  | nil => rfl
  | cons e rest ih =>
    obtain ⟨key, v⟩ := e
    rw [settleEntries_cons, Entries.keys_cons, Entries.keys_cons, ih]

theorem mem_settleEntries {entries : List (String × Value)} {next : Nat} {e : String × Value}
    (h : e ∈ (settleEntries entries next).1) :
    ∃ e' ∈ entries, ∃ n, e.2 = (e'.2.settle n).1 := by
  induction entries generalizing next with
  | nil => cases h
  | cons e' rest ih =>
    obtain ⟨key, v⟩ := e'
    rw [settleEntries_cons] at h
    rcases List.mem_cons.mp h with rfl | h
    · exact ⟨(key, v), List.mem_cons_self, next, rfl⟩
    · obtain ⟨u, hu, n, hn⟩ := ih h
      exact ⟨u, List.mem_cons_of_mem _ hu, n, hn⟩

/-- Under each key of settled entries there is what was there, settled from some later number
on. -/
theorem exists_get?_settleEntries (entries : List (String × Value)) (next : Nat) (key : String) :
    ∃ n, next ≤ n ∧ Entries.get? (settleEntries entries next).1 key =
      (Entries.get? entries key).map fun v ↦ (v.settle n).1 := by
  induction entries generalizing next with
  | nil => exact ⟨next, Nat.le_refl next, rfl⟩
  | cons e rest ih =>
    obtain ⟨k, v⟩ := e
    rw [settleEntries_cons, Entries.get?_cons, Entries.get?_cons]
    by_cases hk : k = key
    · exact ⟨next, Nat.le_refl next, by rw [if_pos hk, if_pos hk, Option.map_some]⟩
    · obtain ⟨n, hle, hn⟩ := ih (v.settle next).2
      exact ⟨n, Nat.le_trans (v.le_settle next) hle, by rw [if_neg hk, if_neg hk, hn]⟩

/-- The same for a value. What has its number already is left as it is, which is to settle it. -/
theorem Value.exists_get?_settle (v : Value) (next : Nat) (key : String) :
    (∃ n, (v.settle next).1.get? key = (v.get? key).map fun w ↦ (w.settle n).1) ∨
      (v.settle next).1.get? key = v.get? key := by
  cases v with
  | map entries =>
    obtain ⟨n, -, hn⟩ := exists_get?_settleEntries entries next key
    exact Or.inl ⟨n, hn⟩
  | record r =>
    rw [settle_record]
    rcases r.settle_cases next with hr | ⟨-, hr⟩
    · exact Or.inr (by rw [hr])
    · obtain ⟨n, -, hn⟩ := exists_get?_settleEntries r.fields (next + 1) key
      rw [hr]
      exact Or.inl ⟨n, hn⟩
  | _ => exact Or.inr rfl

/-- A view of values that settling from `least` on does not change sees the same entries after
it. -/
theorem map_settleEntries {β : Type} {f : Value → β} {entries : List (String × Value)}
    {least next : Nat} (h : ∀ e ∈ entries, ∀ n, least ≤ n → f (e.2.settle n).1 = f e.2)
    (hle : least ≤ next) :
    (settleEntries entries next).1.map (fun e ↦ (e.1, f e.2)) =
      entries.map fun e ↦ (e.1, f e.2) := by
  induction entries generalizing next with
  | nil => rfl
  | cons e rest ih =>
    obtain ⟨key, v⟩ := e
    obtain ⟨hv, hrest⟩ := List.forall_mem_cons.mp h
    rw [settleEntries_cons, List.map_cons, List.map_cons, hv next hle,
      ih hrest (Nat.le_trans hle (v.le_settle next))]

/-- The same for items. -/
theorem map_settleItems {β : Type} {f : Value → β} {items : List Value} {least next : Nat}
    (h : ∀ v ∈ items, ∀ n, least ≤ n → f (v.settle n).1 = f v) (hle : least ≤ next) :
    (settleItems items next).1.map f = items.map f := by
  induction items generalizing next with
  | nil => rfl
  | cons v rest ih =>
    obtain ⟨hv, hrest⟩ := List.forall_mem_cons.mp h
    rw [settleItems_cons, List.map_cons, List.map_cons, hv next hle,
      ih hrest (Nat.le_trans hle (v.le_settle next))]

/-- **Settling keeps contents.** -/
@[simp] theorem Value.contents_settle (v : Value) (next : Nat) :
    (v.settle next).1.contents = v.contents := by
  induction v using Value.induction generalizing next with
  | flat v h => rw [settle_of_not_object h]
  | list items ih =>
    rw [settle_list, contents, contents, contentsItems_eq_map, contentsItems_eq_map,
      map_settleItems (fun v hv n _ ↦ ih v hv n) next.zero_le]
  | map entries ih =>
    rw [settle_map, contents, contents, contentsEntries_eq_map, contentsEntries_eq_map,
      map_settleEntries (fun e he n _ ↦ ih e he n) next.zero_le]
  | record r ih =>
    -- A record with a number is left alone, a fresh one is rebuilt from its settled fields.
    refine congrArg Value.record ?_
    rcases r.settle_cases next with h | ⟨-, h⟩
    · rw [h]
    · obtain ⟨T, i, fields, draft⟩ := r
      rw [h, Record.contents, Record.contents, contentsEntries_eq_map, contentsEntries_eq_map,
        map_settleEntries (fun e he n _ ↦ ih e he n) (next + 1).zero_le]

@[simp] theorem Record.contents_settle (r : Record) (next : Nat) :
    (r.settle next).1.contents = r.contents :=
  Value.record.inj ((Value.record r).contents_settle next)

theorem Record.type_settle (r : Record) (next : Nat) : (r.settle next).1.type = r.type := by
  rcases r.settle_cases next with hr | ⟨-, hr⟩ <;> rw [hr]

theorem Record.draft_settle (r : Record) (next : Nat) : (r.settle next).1.draft = r.draft := by
  rcases r.settle_cases next with hr | ⟨-, hr⟩ <;> rw [hr]

namespace Value

@[simp] theorem isNullish_settle (v : Value) (next : Nat) :
    (v.settle next).1.isNullish = v.isNullish := by
  rw [← isNullish_contents, contents_settle, isNullish_contents]

@[simp] theorem isInstanceOf_settle (v : Value) (next : Nat) (T : RecordType) :
    (v.settle next).1.isInstanceOf T = v.isInstanceOf T := by
  rw [← isInstanceOf_contents, contents_settle, isInstanceOf_contents]

theorem equal_settle (x v : Value) (next : Nat) : x.equal (v.settle next).1 = x.equal v := by
  rw [← equal_contents, contents_settle, equal_contents]

/-- The text of a tag does not depend on storage. -/
theorem display_get?_settle (v : Value) (next : Nat) (key : String) :
    ((v.settle next).1.get? key).map display = (v.get? key).map display := by
  have h : ∀ w : Value, (w.contents.get? key).map display = (w.get? key).map display := by
    intro w
    rw [get?_contents, Option.map_map]
    exact congrArg (Option.map · _) (funext display_contents)
  rw [← h, contents_settle, h]

end Value

/-- Entries that settling leaves alone are left alone together, and use up no numbers. -/
theorem settleEntries_eq_self {entries : List (String × Value)}
    (h : ∀ e ∈ entries, ∀ n, e.2.settle n = (e.2, n)) (next : Nat) :
    settleEntries entries next = (entries, next) := by
  induction entries with
  | nil => rfl
  | cons e rest ih =>
    obtain ⟨key, v⟩ := e
    obtain ⟨hv, hrest⟩ := List.forall_mem_cons.mp h
    rw [settleEntries_cons, hv next, ih hrest]

theorem settleItems_eq_self {items : List Value} (h : ∀ v ∈ items, ∀ n, v.settle n = (v, n))
    (next : Nat) : settleItems items next = (items, next) := by
  induction items with
  | nil => rfl
  | cons v rest ih =>
    obtain ⟨hv, hrest⟩ := List.forall_mem_cons.mp h
    rw [settleItems_cons, hv next, ih hrest]

/-- A settled value has no fresh records left. -/
theorem Value.settle_settle (v : Value) (next m : Nat) :
    (v.settle next).1.settle m = ((v.settle next).1, m) := by
  induction v using Value.induction generalizing next m with
  | flat v h => rw [settle_of_not_object h, settle_of_not_object h]
  | list items ih =>
    have hitems : ∀ v ∈ (settleItems items next).1, ∀ n, v.settle n = (v, n) := by
      intro v hv n
      obtain ⟨w, hw, k, rfl⟩ := mem_settleItems hv
      exact ih w hw k n
    rw [settle_list, settle_list, settleItems_eq_self hitems]
  | map entries ih =>
    have hentries : ∀ e ∈ (settleEntries entries next).1, ∀ n, e.2.settle n = (e.2, n) := by
      intro e he n
      obtain ⟨e', he', k, hk⟩ := mem_settleEntries he
      rw [hk]
      exact ih e' he' k n
    rw [settle_map, settle_map, settleEntries_eq_self hentries]
  | record r =>
    have hstorage : (r.settle next).1.storage.isSome = true := by
      cases h : r.storage with
      | none => rw [Record.settle_of_fresh h]; rfl
      | some i => rw [Record.settle_of_storage (by simp [h]), h]; rfl
    rw [settle_record, settle_record, Record.settle_of_storage hstorage]

end Schemata
