import Mathlib.Data.List.Perm.Subperm
import Schemata.Proofs.Soundness
import Schemata.Value.Json

/-!
# Plain values

A plain value is one that JSON can say: null, a Boolean, a finite number, a string, or a list or map
of plain values. Every value has a plain one that it becomes on the way through JSON and back, its
*normal form* (`Value.normal`): absent entries go, what else JSON has no word for becomes null, and
a record becomes the map of its fields. Writing and reading are two recursions, one over values and
one over JSON, and the second builds its maps entry by entry. It repeats no key that the first did
not repeat, so the two together leave every key in its place (`Value.toValue_toJson`). A plain value
is its own normal form and survives JSON as it is (`Value.toValue_toJson_of_plain`).

For the entries of a record, of which JSON leaves out the absent ones, `get?_toValues_toJson` says
what can be found under each key.

An enumeration accepts what is the same as one of its members, which need not be a member itself:
the keys of a map may come in another order, and zero has two signs. So being plain has to be
carried over from a member to a value that equals it (`Value.plain_of_equal`). For a map this takes
a count. The member's keys are among the value's keys, there are as many of them, and none is
repeated on either side, so the value has no further key.
-/

namespace Schemata

open Schemata.Part

/-- A value that JSON can say. -/
inductive Value.Plain : Value → Prop where
  | null : Plain .null
  | bool (b : Bool) : Plain (.bool b)
  | num {n : Number} : n.isFinite = true → Plain (.num n)
  | str (s : String) : Plain (.str s)
  | list {items : List Value} : (∀ v ∈ items, Plain v) → Plain (.list items)
  | map {entries : List (String × Value)} : (∀ e ∈ entries, Plain e.2) → Plain (.map entries)

/-! ## Normal forms -/

mutual

/-- The value as JSON has it: an undefined entry of a map or field of a record is left out, any
other undefined is null, and so is a number that is not finite; a record is the map of its fields.
-/
def Value.normal : Value → Value
  | .undefined => .null
  | .null => .null
  | .bool b => .bool b
  | .num n => if n.isFinite then .num n else .null
  | .str s => .str s
  | .list items => .list (normalItems items)
  | .map entries => .map (normalEntries entries)
  | .record ⟨_, _, fields, _⟩ => .map (normalEntries fields)
termination_by structural v => v

/-- The normal forms of the items of a list. -/
def normalItems : List Value → List Value
  | [] => []
  | v :: rest => v.normal :: normalItems rest
termination_by structural items => items

/-- The normal forms of the entries that are not undefined. -/
def normalEntries : List (String × Value) → List (String × Value)
  | [] => []
  | (key, v) :: rest =>
    if v.isUndefined then normalEntries rest else (key, v.normal) :: normalEntries rest
termination_by structural entries => entries

end

theorem normalItems_eq_map (items : List Value) : normalItems items = items.map .normal := by
  induction items with
  | nil => rfl
  | cons v rest ih => rw [normalItems, ih, List.map_cons]

theorem normalEntries_eq_map (entries : List (String × Value)) : normalEntries entries =
    (entries.filter (!·.2.isUndefined)).map fun e ↦ (e.1, e.2.normal) := by
  induction entries with
  | nil => rfl
  | cons e rest ih =>
    obtain ⟨key, v⟩ := e
    rw [normalEntries, ih]
    cases hv : v.isUndefined <;> simp [hv]

namespace Value

theorem normal_record (r : Record) : (record r).normal = .map (normalEntries r.fields) := by
  obtain ⟨T, i, fields, draft⟩ := r
  rfl

/-- A normal form is plain, at every depth. -/
theorem plain_normal (v : Value) : v.normal.Plain := by
  have hentries {entries : List (String × Value)} (ih : ∀ e ∈ entries, e.2.normal.Plain) :
      (Value.map (normalEntries entries)).Plain := by
    rw [normalEntries_eq_map]
    refine .map (List.forall_mem_map.mpr fun e he ↦ ?_)
    exact ih e (List.mem_of_mem_filter he)
  induction v using Value.induction with
  | flat v h =>
    cases v with
    | list | map | record => cases h
    | num n =>
      rw [normal]
      split
      · exact .num (by assumption)
      · exact .null
    | _ => constructor
  | list items ih =>
    rw [normal, normalItems_eq_map]
    exact .list (List.forall_mem_map.mpr ih)
  | map entries ih => exact hentries ih
  | record r ih =>
    rw [normal_record]
    exact hentries ih

end Value

variable {known : RecordType → Prop}

/-! ## To JSON and back -/

theorem Json.toValue_ne_undefined (j : Json) : j.toValue ≠ .undefined := by
  cases j <;> simp [toValue]

theorem Json.itemsToValues_eq_map (items : List Json) :
    itemsToValues items = items.map toValue := by
  induction items with
  | nil => rfl
  | cons j rest ih => rw [itemsToValues, ih, List.map_cons]

/-- Absent entries are left out, and what is there is found under its key. -/
theorem get?_toValues_toJson {entries : List (String × Value)} (h : (Entries.keys entries).Nodup)
    (key : String) :
    Entries.get? (Json.entriesToValues (Value.entriesToJson entries)) key =
      (Entries.get? entries key).bind fun v ↦
        if v.isUndefined then none else some v.toJson.toValue := by
  induction entries with
  | nil => rfl
  | cons e rest ih =>
    obtain ⟨k, v⟩ := e
    rw [Entries.keys_cons, List.nodup_cons] at h
    rw [Value.entriesToJson, Entries.get?_cons]
    by_cases hv : v.isUndefined = true
    · rw [if_pos hv, ih h.2]
      by_cases hk : k = key
      · -- No later entry has the key of the one that was left out.
        subst hk
        rw [if_pos rfl, Entries.get?_eq_none_iff.mpr h.1, Option.bind_some, if_pos hv,
          Option.bind_none]
      · rw [if_neg hk]
    · rw [if_neg hv, Json.entriesToValues, Entries.get?_cons, ih h.2]
      by_cases hk : k = key
      · rw [if_pos hk, if_pos hk, Option.bind_some, if_neg hv]
      · rw [if_neg hk, if_neg hk]

theorem sublist_keys_toValues_toJson (entries : List (String × Value)) :
    (Entries.keys (Json.entriesToValues (Value.entriesToJson entries))).Sublist
      (Entries.keys entries) := by
  induction entries with
  | nil => exact List.Sublist.refl _
  | cons e rest ih =>
    obtain ⟨k, v⟩ := e
    rw [Value.entriesToJson]
    split
    · exact ih.cons k
    · exact ih.cons_cons k

theorem ofList_toValues_toJson {entries : List (String × Value)}
    (h : (Entries.keys entries).Nodup) :
    Entries.ofList (Json.entriesToValues (Value.entriesToJson entries)) =
      Json.entriesToValues (Value.entriesToJson entries) :=
  Entries.ofList_eq_self ((sublist_keys_toValues_toJson entries).nodup h)

namespace Value

variable {v : Value}

theorem toValue_toJson_record {r : Record} (h : (Entries.keys r.fields).Nodup) :
    (record r).toJson.toValue = .map (Json.entriesToValues (entriesToJson r.fields)) := by
  obtain ⟨T, i, fields, draft⟩ := r
  rw [toJson, Json.toValue, ofList_toValues_toJson h]

theorem toValues_toJson {entries : List (String × Value)}
    (h : ∀ e ∈ entries, e.2.toJson.toValue = e.2.normal) :
    Json.entriesToValues (entriesToJson entries) = normalEntries entries := by
  induction entries with
  | nil => rfl
  | cons e rest ih =>
    obtain ⟨key, v⟩ := e
    obtain ⟨hv, hrest⟩ := List.forall_mem_cons.mp h
    rw [entriesToJson, normalEntries]
    split
    · exact ih hrest
    · rw [Json.entriesToValues, ih hrest, hv]

/-- **Through JSON and back** a value takes its normal form. -/
theorem toValue_toJson (hsound : (value v).Sound known) : v.toJson.toValue = v.normal := by
  induction v using Value.induction with
  | flat v h =>
    cases v with
    | list | map | record => cases h
    | num n =>
      rw [toJson, normal]
      split <;> rfl
    | _ => rfl
  | list items ih =>
    rw [toJson, Json.toValue, normal, itemsToJson_eq_map, Json.itemsToValues_eq_map, List.map_map,
      normalItems_eq_map]
    exact congrArg list (List.map_congr_left fun v hv ↦ ih v hv (sound_list.mp hsound v hv))
  | map entries ih =>
    obtain ⟨hkeys, hvalues⟩ := sound_map.mp hsound
    rw [toJson, Json.toValue, ofList_toValues_toJson hkeys, normal,
      toValues_toJson fun e he ↦ ih e he (hvalues e he)]
  | record r ih =>
    have hr := sound_value_record.mp hsound
    obtain ⟨-, -, hfields⟩ := sound_record.mp hr
    rw [toValue_toJson_record hr.nodup_keys_fields, normal_record,
      toValues_toJson fun e he ↦ ih e he (hfields e he)]

theorem not_undefined_of_plain (hv : v.Plain) : v.isUndefined = false := by
  cases hv <;> rfl

/-- A plain value is its own normal form. -/
theorem normal_of_plain (hv : v.Plain) : v.normal = v := by
  induction hv with
  | null | bool | str => rfl
  | num hn => rw [normal, if_pos hn]
  | @list items _ ih =>
    rw [normal, normalItems_eq_map, List.map_congr_left ih, List.map_id']
  | @map entries hentries ih =>
    have hall : entries.filter (!·.2.isUndefined) = entries :=
      List.filter_eq_self.mpr fun e he ↦ by rw [not_undefined_of_plain (hentries e he)]; rfl
    have hself : entries.map (fun e ↦ (e.1, e.2.normal)) = entries.map id :=
      List.map_congr_left fun e he ↦ Prod.ext rfl (ih e he)
    rw [normal, normalEntries_eq_map, hall, hself, List.map_id]

/-- **A plain value survives JSON** as it is. -/
theorem toValue_toJson_of_plain (hv : v.Plain) (hsound : (Part.value v).Sound known) :
    v.toJson.toValue = v :=
  (toValue_toJson hsound).trans (normal_of_plain hv)

/-! ## What equals a plain value -/

theorem exists_of_equalItems {xs ys : List Value} (h : equalItems xs ys = true) {y : Value}
    (hy : y ∈ ys) : ∃ x ∈ xs, x.equal y = true := by
  induction xs generalizing ys with
  | nil =>
    cases ys with
    | nil => cases hy
    | cons => cases h
  | cons x rest ih =>
    cases ys with
    | nil => cases hy
    | cons z more =>
      rw [equalItems, Bool.and_eq_true] at h
      rcases List.mem_cons.mp hy with rfl | hy
      · exact ⟨x, List.mem_cons_self, h.1⟩
      · obtain ⟨x', hx', heq⟩ := ih h.2 hy
        exact ⟨x', List.mem_cons_of_mem _ hx', heq⟩

theorem exists_of_equalEntries {xs ys : List (String × Value)} (h : equalEntries xs ys = true)
    {x : String × Value} (hx : x ∈ xs) :
    ∃ y, Entries.get? ys x.1 = some y ∧ x.2.equal y = true := by
  induction xs with
  | nil => cases hx
  | cons z rest ih =>
    obtain ⟨key, z⟩ := z
    rw [equalEntries, Bool.and_eq_true] at h
    rcases List.mem_cons.mp hx with rfl | hx
    · cases hy : Entries.get? ys key with
      | none => simp [hy] at h
      | some y =>
        rw [hy] at h
        exact ⟨y, rfl, h.1⟩
    · exact ih h.2 hx

/-- Entries that equal as many others, key by key, leave no key of those out. -/
theorem keys_subset_of_equalEntries {xs ys : List (String × Value)}
    (h : equalEntries xs ys = true) (hlength : xs.length = ys.length)
    (hxs : (Entries.keys xs).Nodup) : Entries.keys ys ⊆ Entries.keys xs := by
  have hsubset : Entries.keys xs ⊆ Entries.keys ys := by
    intro key hkey
    obtain ⟨x, hx, rfl⟩ := List.mem_map.mp hkey
    obtain ⟨y, hy, -⟩ := exists_of_equalEntries h hx
    exact Entries.get?_isSome_iff.mp (Option.isSome_of_eq_some hy)
  -- As many keys, none twice: the one list of keys is the other in some order.
  have hkeys : (Entries.keys ys).length = (Entries.keys xs).length := by
    rw [Entries.keys, Entries.keys, List.length_map, List.length_map, hlength]
  exact ((hxs.subperm hsubset).perm_of_length_le (Nat.le_of_eq hkeys)).symm.subset

/-- So each of those is equalled by an entry under its key. -/
theorem exists_mem_of_equalEntries {xs ys : List (String × Value)}
    (h : equalEntries xs ys = true) (hlength : xs.length = ys.length)
    (hxs : (Entries.keys xs).Nodup) (hys : (Entries.keys ys).Nodup) {y : String × Value}
    (hy : y ∈ ys) : ∃ x ∈ xs, x.1 = y.1 ∧ x.2.equal y.2 = true := by
  have hkey : y.1 ∈ Entries.keys xs :=
    keys_subset_of_equalEntries h hlength hxs (List.mem_map_of_mem hy)
  obtain ⟨x, hx, hxy⟩ := List.mem_map.mp hkey
  obtain ⟨w, hw, heq⟩ := exists_of_equalEntries h hx
  obtain rfl : w = y.2 := by
    rw [hxy, Entries.get?_eq_some_of_mem hys hy] at hw
    exact (Option.some.inj hw).symm
  exact ⟨x, hx, hxy, heq⟩

/-- What equals a plain value is plain, as far as its numbers are finite. -/
theorem plain_of_equal {m : Value} (hm : m.Plain) (h : m.equal v = true)
    (hmsound : (Part.value m).Sound known) (hsound : (Part.value v).Sound known)
    (hfinite : ∀ n, (Part.value (.num n)).NestedIn (.value v) → n.isFinite = true) : v.Plain := by
  induction hm generalizing v with
  | null | bool | str =>
    cases v with
    | null | bool | str => constructor
    | _ => cases h
  | num hn =>
    cases v with
    | num n => exact .num (hfinite n (NestedIn.refl _))
    | _ => cases h
  | @list items hitems ih =>
    cases v with
    | list ys =>
      refine .list fun y hy ↦ ?_
      obtain ⟨x, hx, heq⟩ := exists_of_equalItems h hy
      have hnested : (Part.value y).NestedIn (.value (.list ys)) :=
        nestedIn_of_mem_nested (List.mem_map_of_mem hy)
      exact ih x hx heq (sound_list.mp hmsound x hx) (sound_list.mp hsound y hy)
        fun n hn ↦ hfinite n (hn.trans hnested)
    | _ => cases h
  | @map entries hentries ih =>
    cases v with
    | map ys =>
      rw [equal, Bool.and_eq_true, beq_iff_eq] at h
      obtain ⟨hkeys, hmembers⟩ := sound_map.mp hmsound
      obtain ⟨hnodup, hvalues⟩ := sound_map.mp hsound
      refine .map fun e he ↦ ?_
      obtain ⟨x, hx, -, heq⟩ := exists_mem_of_equalEntries h.2 h.1 hkeys hnodup he
      have hnested : (Part.value e.2).NestedIn (.value (.map ys)) :=
        nestedIn_of_mem_nested (List.mem_map_of_mem (f := fun e ↦ Part.value e.2) he)
      exact ih x hx heq (hmembers x hx) (hvalues e he) fun n hn ↦ hfinite n (hn.trans hnested)
    | _ => cases h

/-- What is among plain members is plain, as far as its numbers are finite. -/
theorem plain_of_isAmong {members : List Value} (hmembers : ∀ m ∈ members, m.Plain)
    (h : v.isAmong members = true) (hmsound : ∀ m ∈ members, (Part.value m).Sound known)
    (hsound : (Part.value v).Sound known)
    (hfinite : ∀ n, (Part.value (.num n)).NestedIn (.value v) → n.isFinite = true) : v.Plain := by
  obtain ⟨m, hm, hsame⟩ := List.any_eq_true.mp h
  have hplain := hmembers m hm
  by_cases heq : m.equal v = true
  · exact plain_of_equal hplain heq (hmsound m hm) hsound hfinite
  · -- Apart from records, of which none is plain, only numbers can be the same without being equal.
    cases hplain with
    | num =>
      cases v with
      | num n => exact .num (hfinite n (NestedIn.refl _))
      | _ => cases hsame
    | _ => exact absurd hsame heq

end Value

end Schemata
