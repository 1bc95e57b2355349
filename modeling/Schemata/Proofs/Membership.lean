import Mathlib.Data.List.Forall2
import Schemata.Proofs.PlainValues
import Schemata.Proofs.Sharing

/-!
# Equality and membership

Two values are compared in two ways. Equality of contents looks into lists, maps and records, and
sameness, which decides membership in an enumeration, is equality of contents except for two
numbers and for two records: any NaN is the same as any other, and records are the same only if they
are one. The exceptions are for the outermost value alone.

Both are symmetric and transitive (`Value.equal_comm`, `Value.equal_trans`). Neither is reflexive. A
value equals itself unless there is a NaN somewhere in it (`Value.equal_self_iff`), and it is the
same as itself unless it is a list or a map with a NaN in it (`Value.same_self_iff`): a NaN inside a
container is compared as contents again.

So an enumeration can have members that it does not accept, namely the containers with a NaN in
them, and they are no defaults of it either. That no other member accepts them for it is what
symmetry and transitivity are needed for.

Entries are compared by looking up each key of one side on the other. For symmetry this takes the
count of the entries and that no key is repeated.
-/

namespace Schemata

open Schemata.Part

/-! ## Numbers -/

namespace Number

variable {a b c : Number}

theorem equal_eq_true_iff : a.equal b = true ↔
    a.isNaN = false ∧ b.isNaN = false ∧ (a = b ∨ a.isZero = true ∧ b.isZero = true) := by
  simp only [equal, Bool.and_eq_true, Bool.or_eq_true, Bool.not_eq_true', beq_iff_eq, and_assoc]

theorem same_eq_true_iff : a.same b = true ↔
    a.equal b = true ∨ a.isNaN = true ∧ b.isNaN = true := by
  simp only [same, Bool.or_eq_true, Bool.and_eq_true]

theorem equal_symm (h : a.equal b = true) : b.equal a = true := by
  obtain ⟨ha, hb, hab⟩ := equal_eq_true_iff.mp h
  exact equal_eq_true_iff.mpr ⟨hb, ha, hab.imp Eq.symm And.symm⟩

theorem equal_trans (h : a.equal b = true) (h' : b.equal c = true) : a.equal c = true := by
  obtain ⟨ha, -, hab⟩ := equal_eq_true_iff.mp h
  obtain ⟨-, hc, hbc⟩ := equal_eq_true_iff.mp h'
  refine equal_eq_true_iff.mpr ⟨ha, hc, ?_⟩
  rcases hab with rfl | ⟨ha, hb⟩
  · exact hbc
  · rcases hbc with rfl | ⟨-, hc⟩
    · exact Or.inr ⟨ha, hb⟩
    · exact Or.inr ⟨ha, hc⟩

theorem equal_self (a : Number) : a.equal a = !a.isNaN := by
  simp [equal]

theorem same_symm (h : a.same b = true) : b.same a = true :=
  same_eq_true_iff.mpr ((same_eq_true_iff.mp h).imp equal_symm And.symm)

theorem same_trans (h : a.same b = true) (h' : b.same c = true) : a.same c = true := by
  refine same_eq_true_iff.mpr ?_
  rcases same_eq_true_iff.mp h with hab | ⟨ha, hb⟩ <;>
    rcases same_eq_true_iff.mp h' with hbc | ⟨hb', hc⟩
  · exact Or.inl (equal_trans hab hbc)
  · rw [(equal_eq_true_iff.mp hab).2.1] at hb'
    cases hb'
  · rw [(equal_eq_true_iff.mp hbc).1] at hb
    cases hb
  · exact Or.inr ⟨ha, hc⟩

theorem same_self (a : Number) : a.same a = true := by
  rw [same, equal_self]
  cases a.isNaN <;> rfl

end Number

/-! ## Identity -/

namespace Record

variable {r s t : Record}

theorem identical_iff : r.identical s = true ↔
    r.type.id = s.type.id ∧ r.storage.isSome = true ∧ r.storage = s.storage := by
  rw [identical, RecordType.identical, Bool.and_eq_true, Bool.and_eq_true, beq_iff_eq, beq_iff_eq,
    and_assoc]

theorem identical_symm (h : r.identical s = true) : s.identical r = true := by
  obtain ⟨hid, hsome, hstorage⟩ := identical_iff.mp h
  exact identical_iff.mpr ⟨hid.symm, hstorage ▸ hsome, hstorage.symm⟩

theorem identical_trans (h : r.identical s = true) (h' : s.identical t = true) :
    r.identical t = true := by
  obtain ⟨hid, hsome, hstorage⟩ := identical_iff.mp h
  obtain ⟨hid', -, hstorage'⟩ := identical_iff.mp h'
  exact identical_iff.mpr ⟨hid.trans hid', hsome, hstorage.trans hstorage'⟩

end Record

/-! ## Items and entries -/

namespace Value

variable {xs ys : List (String × Value)}

/-- Lists are equal item by item. -/
theorem equalItems_iff {vs ws : List Value} :
    equalItems vs ws = true ↔ vs.length = ws.length ∧ ∀ i (hv : i < vs.length)
      (hw : i < ws.length), (vs.get ⟨i, hv⟩).equal (ws.get ⟨i, hw⟩) = true := by
  refine Iff.trans ?_ (List.forall₂_iff_get (R := fun v w : Value ↦ v.equal w = true))
  induction vs generalizing ws with
  | nil => cases ws <;> simp [equalItems]
  | cons v rest ih =>
    cases ws with
    | nil => simp [equalItems]
    | cons w more => rw [equalItems, Bool.and_eq_true, List.forall₂_cons, ih]

theorem equalItems_self_iff {vs : List Value} :
    equalItems vs vs = true ↔ ∀ v ∈ vs, v.equal v = true := by
  rw [equalItems_iff, List.forall_mem_iff_get]
  exact ⟨fun h i ↦ h.2 i i.isLt i.isLt, fun h ↦ ⟨rfl, fun i hi _ ↦ h ⟨i, hi⟩⟩⟩

theorem equalItems_symm {vs ws : List Value} (h : equalItems vs ws = true)
    (hsymm : ∀ v ∈ vs, ∀ w ∈ ws, v.equal w = true → w.equal v = true) :
    equalItems ws vs = true := by
  obtain ⟨hlength, hitems⟩ := equalItems_iff.mp h
  refine equalItems_iff.mpr ⟨hlength.symm, fun i hw hv ↦ ?_⟩
  exact hsymm _ (List.get_mem vs _) _ (List.get_mem ws _) (hitems i hv hw)

theorem equalItems_trans {us vs ws : List Value} (h : equalItems us vs = true)
    (h' : equalItems vs ws = true)
    (htrans : ∀ u ∈ us, ∀ v w, u.equal v = true → v.equal w = true → u.equal w = true) :
    equalItems us ws = true := by
  obtain ⟨hlength, hitems⟩ := equalItems_iff.mp h
  obtain ⟨hlength', hitems'⟩ := equalItems_iff.mp h'
  refine equalItems_iff.mpr ⟨hlength.trans hlength', fun i hu hw ↦ ?_⟩
  have hv : i < vs.length := hlength ▸ hu
  exact htrans _ (List.get_mem us _) _ _ (hitems i hu hv) (hitems' i hv hw)

/-- Entries equal others if each of them finds its equal under its key. -/
theorem equalEntries_iff : equalEntries xs ys = true ↔
    ∀ e ∈ xs, ∃ w, Entries.get? ys e.1 = some w ∧ e.2.equal w = true := by
  refine ⟨fun h e he ↦ exists_of_equalEntries h he, fun h ↦ ?_⟩
  induction xs with
  | nil => rfl
  | cons e rest ih =>
    obtain ⟨key, v⟩ := e
    obtain ⟨⟨w, hw, heq⟩, hrest⟩ := List.forall_mem_cons.mp h
    rw [equalEntries, hw, Bool.and_eq_true]
    exact ⟨heq, ih hrest⟩

theorem equalEntries_self_iff (hxs : (Entries.keys xs).Nodup) :
    equalEntries xs xs = true ↔ ∀ e ∈ xs, e.2.equal e.2 = true := by
  rw [equalEntries_iff]
  refine forall₂_congr fun e he ↦ ?_
  rw [Entries.get?_eq_some_of_mem hxs he]
  simp

theorem equalEntries_symm (h : equalEntries xs ys = true) (hlength : xs.length = ys.length)
    (hxs : (Entries.keys xs).Nodup) (hys : (Entries.keys ys).Nodup)
    (hsymm : ∀ x ∈ xs, ∀ y ∈ ys, x.2.equal y.2 = true → y.2.equal x.2 = true) :
    equalEntries ys xs = true := by
  refine equalEntries_iff.mpr fun y hy ↦ ?_
  obtain ⟨x, hx, hxy, heq⟩ := exists_mem_of_equalEntries h hlength hxs hys hy
  exact ⟨x.2, hxy ▸ Entries.get?_eq_some_of_mem hxs hx, hsymm x hx y hy heq⟩

theorem equalEntries_trans {zs : List (String × Value)} (h : equalEntries xs ys = true)
    (h' : equalEntries ys zs = true)
    (htrans : ∀ x ∈ xs, ∀ v w, x.2.equal v = true → v.equal w = true → x.2.equal w = true) :
    equalEntries xs zs = true := by
  refine equalEntries_iff.mpr fun x hx ↦ ?_
  obtain ⟨y, hy, hxy⟩ := exists_of_equalEntries h hx
  obtain ⟨z, hz, hyz⟩ := exists_of_equalEntries h' (Entries.mem_of_get?_eq_some hy)
  exact ⟨z, hz, htrans x hx y z hxy hyz⟩

/-! ## Equality of contents -/

variable {known known' : RecordType → Prop} {u v w : Value}

theorem equal_map_iff :
    (map xs).equal (map ys) = true ↔ xs.length = ys.length ∧ equalEntries xs ys = true := by
  rw [equal, Bool.and_eq_true, beq_iff_eq]

theorem equal_record_iff {r s : Record} : (record r).equal (record s) = true ↔
    r.type.id = s.type.id ∧ r.fields.length = s.fields.length ∧
      equalEntries r.fields s.fields = true := by
  rw [equal_record, RecordType.identical, Bool.and_eq_true, Bool.and_eq_true, beq_iff_eq,
    beq_iff_eq, and_assoc]

/-- A value with nothing in it equals itself alone, but for the two zeros. -/
theorem eq_or_nums_of_equal (hv : v.isObject = false) (h : v.equal w = true) :
    v = w ∨ ∃ a b, v = .num a ∧ w = .num b ∧ a.equal b = true := by
  cases v with
  | undefined | null =>
    cases w with
    | undefined | null => first | exact Or.inl rfl | cases h
    | _ => cases h
  | bool | str =>
    cases w with
    | bool | str => first | exact Or.inl (congrArg _ (beq_iff_eq.mp h)) | cases h
    | _ => cases h
  | num a =>
    cases w with
    | num b => exact Or.inr ⟨a, b, rfl, rfl, h⟩
    | _ => cases h
  | list | map | record => cases hv

theorem exists_list_of_equal {items : List Value} (h : (list items).equal w = true) :
    ∃ more, w = .list more := by
  cases w with
  | list more => exact ⟨more, rfl⟩
  | _ => cases h

theorem exists_map_of_equal {entries : List (String × Value)}
    (h : (map entries).equal w = true) : ∃ more, w = .map more := by
  cases w with
  | map more => exact ⟨more, rfl⟩
  | _ => cases h

theorem exists_record_of_equal {r : Record} (h : (record r).equal w = true) :
    ∃ s, w = .record s := by
  cases w with
  | record s => exact ⟨s, rfl⟩
  | _ =>
    rw [equal_of_not_record rfl] at h
    cases h

/-- **Equality is symmetric.** -/
theorem equal_symm (hv : (value v).Sound known) (hw : (value w).Sound known')
    (h : v.equal w = true) : w.equal v = true := by
  induction v using Value.induction generalizing w with
  | flat v hflat =>
    rcases eq_or_nums_of_equal hflat h with rfl | ⟨a, b, rfl, rfl, hab⟩
    · exact h
    · exact Number.equal_symm hab
  | list items ih =>
    obtain ⟨more, rfl⟩ := exists_list_of_equal h
    refine equalItems_symm h fun x hx y hy heq ↦ ?_
    exact ih x hx (sound_list.mp hv x hx) (sound_list.mp hw y hy) heq
  | map entries ih =>
    obtain ⟨more, rfl⟩ := exists_map_of_equal h
    obtain ⟨hlength, hentries⟩ := equal_map_iff.mp h
    obtain ⟨hkeys, hvalues⟩ := sound_map.mp hv
    obtain ⟨hkeys', hvalues'⟩ := sound_map.mp hw
    refine equal_map_iff.mpr ⟨hlength.symm, equalEntries_symm hentries hlength hkeys hkeys' ?_⟩
    exact fun x hx y hy heq ↦ ih x hx (hvalues x hx) (hvalues' y hy) heq
  | record r ih =>
    obtain ⟨s, rfl⟩ := exists_record_of_equal h
    obtain ⟨hid, hlength, hentries⟩ := equal_record_iff.mp h
    have hr := sound_value_record.mp hv
    have hs := sound_value_record.mp hw
    obtain ⟨-, -, hfields⟩ := sound_record.mp hr
    obtain ⟨-, -, hfields'⟩ := sound_record.mp hs
    refine equal_record_iff.mpr ⟨hid.symm, hlength.symm, equalEntries_symm hentries hlength
      hr.nodup_keys_fields hs.nodup_keys_fields ?_⟩
    exact fun x hx y hy heq ↦ ih x hx (hfields x hx) (hfields' y hy) heq

theorem equal_comm (hv : (value v).Sound known) (hw : (value w).Sound known') :
    v.equal w = w.equal v :=
  Bool.eq_iff_iff.mpr ⟨equal_symm hv hw, equal_symm hw hv⟩

/-- **Equality is transitive.** -/
theorem equal_trans (h : u.equal v = true) (h' : v.equal w = true) : u.equal w = true := by
  induction u using Value.induction generalizing v w with
  | flat u hflat =>
    rcases eq_or_nums_of_equal hflat h with rfl | ⟨a, b, rfl, rfl, hab⟩
    · exact h'
    · rcases eq_or_nums_of_equal rfl h' with rfl | ⟨b', c, hb, rfl, hbc⟩
      · exact hab
      · obtain rfl := num.inj hb
        exact Number.equal_trans hab hbc
  | list items ih =>
    obtain ⟨more, rfl⟩ := exists_list_of_equal h
    obtain ⟨still, rfl⟩ := exists_list_of_equal h'
    exact equalItems_trans h h' fun x hx _ _ ↦ ih x hx
  | map entries ih =>
    obtain ⟨more, rfl⟩ := exists_map_of_equal h
    obtain ⟨still, rfl⟩ := exists_map_of_equal h'
    obtain ⟨hlength, hentries⟩ := equal_map_iff.mp h
    obtain ⟨hlength', hentries'⟩ := equal_map_iff.mp h'
    exact equal_map_iff.mpr
      ⟨hlength.trans hlength', equalEntries_trans hentries hentries' fun x hx _ _ ↦ ih x hx⟩
  | record r ih =>
    obtain ⟨s, rfl⟩ := exists_record_of_equal h
    obtain ⟨t, rfl⟩ := exists_record_of_equal h'
    obtain ⟨hid, hlength, hentries⟩ := equal_record_iff.mp h
    obtain ⟨hid', hlength', hentries'⟩ := equal_record_iff.mp h'
    exact equal_record_iff.mpr ⟨hid.trans hid', hlength.trans hlength',
      equalEntries_trans hentries hentries' fun x hx _ _ ↦ ih x hx⟩

end Value

/-! ## Values with a NaN -/

/-- A NaN occurs in the part, at whatever depth: as the value itself, as an item, as an entry of a
map or as a field of a record. -/
def Part.HasNaN (p : Part) : Prop :=
  ∃ n : Number, n.isNaN = true ∧ (value (.num n)).NestedIn p

namespace Part

theorem hasNaN_iff {p : Part} :
    p.HasNaN ↔ (∃ n : Number, n.isNaN = true ∧ value (.num n) = p) ∨ ∃ c ∈ p.nested, c.HasNaN := by
  simp only [HasNaN, nestedIn_iff (q := p), and_or_left, exists_or]
  refine or_congr_right ?_
  constructor
  · rintro ⟨n, hn, c, hc, hnested⟩
    exact ⟨c, hc, n, hn, hnested⟩
  · rintro ⟨c, hc, n, hn, hnested⟩
    exact ⟨n, hn, c, hc, hnested⟩

theorem hasNaN_num {n : Number} : (value (.num n)).HasNaN ↔ n.isNaN = true := by
  rw [hasNaN_iff]
  simp [nested]

theorem not_hasNaN_of_flat {v : Value} (hv : v.isObject = false) (hnum : v.num? = none) :
    ¬(value v).HasNaN := by
  rw [hasNaN_iff]
  cases v with
  | num => cases hnum
  | list | map | record => cases hv
  | _ => simp [nested]

theorem hasNaN_list {items : List Value} :
    (value (.list items)).HasNaN ↔ ∃ v ∈ items, (value v).HasNaN := by
  rw [hasNaN_iff]
  simp [nested]

theorem hasNaN_map {entries : List (String × Value)} :
    (value (.map entries)).HasNaN ↔ ∃ e ∈ entries, (value e.2).HasNaN := by
  rw [hasNaN_iff]
  simp [nested]

theorem hasNaN_record {r : Record} :
    (value (.record r)).HasNaN ↔ ∃ e ∈ r.fields, (value e.2).HasNaN := by
  rw [hasNaN_iff]
  simp [nested, hasNaN_iff (p := record r)]

end Part

namespace Value

variable {known known' : RecordType → Prop} {u v w : Value}

/-- **A value equals itself** unless there is a NaN in it. -/
theorem equal_self_iff (hv : (value v).Sound known) : v.equal v = true ↔ ¬(value v).HasNaN := by
  induction v using Value.induction with
  | flat v hflat =>
    cases v with
    | num n =>
      rw [hasNaN_num, equal, Number.equal_self, Bool.not_eq_true', Bool.not_eq_true]
    | list | map | record => cases hflat
    | _ => exact iff_of_true (by simp [equal]) (not_hasNaN_of_flat rfl rfl)
  | list items ih =>
    have hitems := sound_list.mp hv
    rw [hasNaN_list, equal, equalItems_self_iff]
    simp only [not_exists, not_and]
    exact forall₂_congr fun x hx ↦ ih x hx (hitems x hx)
  | map entries ih =>
    obtain ⟨hkeys, hentries⟩ := sound_map.mp hv
    rw [hasNaN_map, equal_map_iff, and_iff_right rfl, equalEntries_self_iff hkeys]
    simp only [not_exists, not_and]
    exact forall₂_congr fun e he ↦ ih e he (hentries e he)
  | record r ih =>
    have hr := sound_value_record.mp hv
    obtain ⟨-, -, hfields⟩ := sound_record.mp hr
    rw [hasNaN_record, equal_record_iff, and_iff_right rfl, and_iff_right rfl,
      equalEntries_self_iff hr.nodup_keys_fields]
    simp only [not_exists, not_and]
    exact forall₂_congr fun e he ↦ ih e he (hfields e he)

/-! ## Sameness -/

/-- What equals neither a number nor a record is neither of them. -/
theorem kind_of_equal (h : v.equal w = true) :
    (v.num? = none → w.num? = none) ∧ (v.record? = none → w.record? = none) := by
  cases v with
  | list =>
    obtain ⟨_, rfl⟩ := exists_list_of_equal h
    exact ⟨fun _ ↦ rfl, fun _ ↦ rfl⟩
  | map =>
    obtain ⟨_, rfl⟩ := exists_map_of_equal h
    exact ⟨fun _ ↦ rfl, fun _ ↦ rfl⟩
  | record =>
    obtain ⟨_, rfl⟩ := exists_record_of_equal h
    exact ⟨fun _ ↦ rfl, nofun⟩
  | _ =>
    rcases eq_or_nums_of_equal rfl h with rfl | ⟨a, b, hv, rfl, -⟩
    · exact ⟨id, id⟩
    · rw [hv]
      exact ⟨nofun, fun _ ↦ rfl⟩

/-- Sameness is equality for a value that is neither a number nor a record. -/
theorem same_eq_equal_left (hnum : v.num? = none) (hrecord : v.record? = none) :
    v.same w = v.equal w := by
  cases v with
  | num => cases hnum
  | record => cases hrecord
  | _ => cases w <;> rfl

/-- Two values are the same as numbers, as records, or by their contents. -/
theorem same_cases (h : v.same w = true) :
    (∃ a b, v = .num a ∧ w = .num b ∧ a.same b = true) ∨
    (∃ r s, v = .record r ∧ w = .record s ∧ r.identical s = true) ∨
    (v.num? = none ∧ v.record? = none ∧ v.equal w = true) := by
  cases v with
  | num a =>
    cases w with
    | num b => exact Or.inl ⟨a, b, rfl, rfl, h⟩
    | _ => cases h
  | record r =>
    cases w with
    | record s => exact Or.inr (Or.inl ⟨r, s, rfl, rfl, h⟩)
    | _ =>
      obtain ⟨s, hs⟩ := exists_record_of_equal (r := r) h
      cases hs
  | _ =>
    rw [same_eq_equal_left rfl rfl] at h
    exact Or.inr (Or.inr ⟨rfl, rfl, h⟩)

/-- **Sameness is symmetric.** -/
theorem same_symm (hv : (value v).Sound known) (hw : (value w).Sound known')
    (h : v.same w = true) : w.same v = true := by
  rcases same_cases h with ⟨a, b, rfl, rfl, hab⟩ | ⟨r, s, rfl, rfl, hrs⟩ | ⟨hnum, hrecord, heq⟩
  · exact Number.same_symm hab
  · exact Record.identical_symm hrs
  · rw [FieldType.same_eq_equal hnum hrecord]
    exact equal_symm hv hw heq

theorem same_comm (hv : (value v).Sound known) (hw : (value w).Sound known') :
    v.same w = w.same v :=
  Bool.eq_iff_iff.mpr ⟨same_symm hv hw, same_symm hw hv⟩

/-- **Sameness is transitive.** -/
theorem same_trans (h : u.same v = true) (h' : v.same w = true) : u.same w = true := by
  rcases same_cases h with ⟨a, b, rfl, rfl, hab⟩ | ⟨r, s, rfl, rfl, hrs⟩ | ⟨hnum, hrecord, heq⟩
  · rcases same_cases h' with ⟨b', c, hb, rfl, hbc⟩ | ⟨_, _, hb, -⟩ | ⟨hb, -⟩
    · obtain rfl := num.inj hb
      exact Number.same_trans hab hbc
    · cases hb
    · cases hb
  · rcases same_cases h' with ⟨_, _, hs, -⟩ | ⟨s', t, hs, rfl, hst⟩ | ⟨-, hs, -⟩
    · cases hs
    · obtain rfl := record.inj hs
      exact Record.identical_trans hrs hst
    · cases hs
  · obtain ⟨hnum', hrecord'⟩ := kind_of_equal heq
    rw [same_eq_equal_left (hnum' hnum) (hrecord' hrecord)] at h'
    rw [same_eq_equal_left hnum hrecord]
    exact equal_trans heq h'

/-- Lists and plain maps. -/
def isCollection : Value → Bool
  | list _ | map _ => true
  | _ => false

/-- **A value is the same as itself** unless it is a list or a map with a NaN in it. -/
theorem same_self_iff {σ : Store} (hv : (value v).Sound known)
    (hstored : (value v).Throughout (Stored σ)) :
    v.same v = true ↔ ¬(v.isCollection = true ∧ (value v).HasNaN) := by
  cases v with
  | num n => exact iff_of_true n.same_self fun h ↦ Bool.false_ne_true h.1
  | record r =>
    obtain ⟨i, hi, -⟩ := (throughout_value_record.mp hstored).2.self
    refine iff_of_true ?_ fun h ↦ Bool.false_ne_true h.1
    exact Record.identical_iff.mpr ⟨rfl, Option.isSome_of_eq_some hi, rfl⟩
  | list | map =>
    rw [FieldType.same_eq_equal rfl rfl, equal_self_iff hv, isCollection, and_iff_right rfl]
  | _ => exact iff_of_true (by simp [same, equal]) fun h ↦ Bool.false_ne_true h.1

/-! ## Members of an enumeration -/

/-- A member is accepted exactly if it is the same as itself: no other member can stand in. -/
theorem isAmong_iff_of_mem {members : List Value}
    (hmembers : ∀ m ∈ members, ∃ known, (value m).Sound known) (hv : v ∈ members) :
    v.isAmong members = true ↔ v.same v = true := by
  rw [isAmong, List.any_eq_true]
  constructor
  · rintro ⟨m, hm, hsame⟩
    obtain ⟨known, hmsound⟩ := hmembers m hm
    obtain ⟨known', hvsound⟩ := hmembers v hv
    exact same_trans (same_symm hmsound hvsound hsame) hsame
  · exact fun h ↦ ⟨v, hv, h⟩

end Value

/-- **Equality, sameness, and what an enumeration accepts.** For all reachable values:

* equality and sameness are symmetric and transitive;
* a value does not equal itself exactly if a NaN occurs in it, at whatever depth, and it is not the
  same as itself exactly if it is a list or a plain map in which a NaN occurs;
* a member of an enumeration, unless it is undefined, is read as it is exactly if it is no such list
  or map, and exactly then it can be the default of an enumeration of these members. -/
theorem membership_of_reachable :
    (∀ v w, Session.Reachable (value v) → Session.Reachable (value w) →
      v.equal w = w.equal v ∧ v.same w = w.same v) ∧
    (∀ u v w, Session.Reachable (value u) → Session.Reachable (value v) →
      Session.Reachable (value w) →
        (u.equal v = true → v.equal w = true → u.equal w = true) ∧
          (u.same v = true → v.same w = true → u.same w = true)) ∧
    (∀ v, Session.Reachable (value v) →
      (v.equal v = false ↔ (value v).HasNaN) ∧
        (v.same v = false ↔ v.isCollection = true ∧ (value v).HasNaN)) ∧
    ∀ members e v, (∀ m ∈ members, Session.Reachable (value m)) →
      FieldType.enumOf members .undefined = .ok e → v ∈ members → v ≠ .undefined →
        (e.read v = .ok v ↔ ¬(v.isCollection = true ∧ (value v).HasNaN)) ∧
          ((∃ F, FieldType.enumOf members v = .ok F) ↔
            ¬(v.isCollection = true ∧ (value v).HasNaN)) := by
  have hsound {v : Value} (hv : Session.Reachable (value v)) : ∃ known, (value v).Sound known := by
    obtain ⟨_, known, -, hknown⟩ := Session.exists_sound_of_reachable hv
    exact ⟨known, hknown⟩
  have hself {v : Value} (hv : Session.Reachable (value v)) :
      v.same v = true ↔ ¬(v.isCollection = true ∧ (value v).HasNaN) := by
    obtain ⟨known, hknown⟩ := hsound hv
    obtain ⟨σ, hσ⟩ := Session.exists_stored_of_reachable hv
    exact Value.same_self_iff hknown hσ
  refine ⟨fun v w hv hw ↦ ?_, fun u v w _ _ _ ↦ ⟨Value.equal_trans, Value.same_trans⟩,
    fun v hv ↦ ?_, fun members e v hmembers he hmem hne ↦ ?_⟩
  · obtain ⟨known, hknown⟩ := hsound hv
    obtain ⟨known', hknown'⟩ := hsound hw
    exact ⟨Value.equal_comm hknown hknown', Value.same_comm hknown hknown'⟩
  · obtain ⟨known, hknown⟩ := hsound hv
    rw [← Bool.not_eq_true, ← Bool.not_eq_true, Value.equal_self_iff hknown, hself hv, not_not,
      not_not]
    exact ⟨Iff.rfl, Iff.rfl⟩
  · have hundefined : v.isUndefined = false := Value.isUndefined_eq_false_iff.mpr hne
    have haccepted : v.isAmong members = true ↔ ¬(v.isCollection = true ∧ (value v).HasNaN) :=
      (Value.isAmong_iff_of_mem (fun m hm ↦ hsound (hmembers m hm)) hmem).trans
        (hself (hmembers v hmem))
    obtain ⟨hmembers, -, rfl⟩ := FieldType.enumOf_eq_ok_iff.mp he
    constructor
    · rw [FieldType.read_enum_eq_ok_iff, haccepted, FieldType.orDefault_of_ne_undefined hne]
      exact and_iff_right rfl
    · rw [← haccepted]
      constructor
      · rintro ⟨F, hF⟩
        exact (FieldType.enumOf_eq_ok_iff.mp hF).2.1 hundefined
      · exact fun h ↦ ⟨_, FieldType.enumOf_eq_ok_iff.mpr ⟨hmembers, fun _ ↦ h, rfl⟩⟩

/-! ## A NaN and a list of it -/

namespace Session

/-- A list of a NaN. -/
def nans : Value := .list [.num .nan]

/-- A NaN, a list of it, and two maps that differ in the order of their keys. -/
def readings : List Value :=
  [.num .nan, nans, .map [("low", .bool false), ("high", .bool true)],
    .map [("high", .bool true), ("low", .bool false)]]

def readingsSteps : List Step :=
  [⟨.value (.list [.num .nan, .list [.num .nan],
      .map [("low", .bool false), ("high", .bool true)],
      .map [("high", .bool true), ("low", .bool false)]]), some "readings"⟩]

theorem value_readings : (script readingsSteps).value "readings" = .ok (.list readings) := rfl

theorem reachable_of_mem_readings {v : Value} (hv : v ∈ readings) : Reachable (.value v) := by
  have hlist : Reachable (.value (.list readings)) := reachable_of_value value_readings
  have hmem : Part.value v ∈ (Part.value (.list readings)).direct := by
    rw [direct_list]
    exact List.mem_map_of_mem hv
  exact hlist.of_within (within_of_mem_direct hmem)

/-- The order of keys makes no difference, and a list of a NaN is no member that its enumeration
accepts, while a NaN is one. -/
theorem membership_of_reachable_readings :
    (Value.map [("high", .bool true), ("low", .bool false)]).equal
        (.map [("low", .bool false), ("high", .bool true)]) = true ∧
      nans.equal nans = false ∧
      ∃ e, FieldType.enumOf readings .undefined = .ok e ∧ e.read (.num .nan) = .ok (.num .nan) ∧
        e.read nans ≠ .ok nans ∧ ¬∃ F, FieldType.enumOf readings nans = .ok F := by
  have hnan : Number.nan.isNaN = true := by decide
  have hnans : (Part.value nans).HasNaN :=
    hasNaN_list.mpr ⟨.num .nan, List.mem_singleton_self _, hasNaN_num.mpr hnan⟩
  obtain ⟨hcomm, -, hself, henum⟩ := membership_of_reachable
  obtain ⟨e, he⟩ : ∃ e, FieldType.enumOf readings .undefined = .ok e := ⟨_, rfl⟩
  have hmem : nans ∈ readings := List.mem_cons_of_mem _ List.mem_cons_self
  obtain ⟨hread, hdefault⟩ :=
    henum readings e nans (fun m ↦ reachable_of_mem_readings) he hmem (fun h ↦ nomatch h)
  obtain ⟨hread', -⟩ := henum readings e (.num .nan) (fun m ↦ reachable_of_mem_readings) he
    List.mem_cons_self (fun h ↦ nomatch h)
  refine ⟨?_, ?_, e, he, hread'.mpr fun h ↦ Bool.false_ne_true h.1, ?_, ?_⟩
  · rw [(hcomm _ _ (reachable_of_mem_readings (by simp [readings]))
      (reachable_of_mem_readings (by simp [readings]))).1]
    rfl
  · exact (hself nans (reachable_of_mem_readings hmem)).1.mpr hnans
  · exact fun h ↦ hread.mp h ⟨rfl, hnans⟩
  · exact fun h ↦ hdefault.mp h ⟨rfl, hnans⟩

end Session

end Schemata
