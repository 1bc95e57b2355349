import Schemata.Proofs.Defaults
import Schemata.Proofs.FieldWrites
import Schemata.Proofs.Sharing

/-!
# Resetting fields

Resetting a field writes undefined to it, and what a field makes of undefined is its default. So a
reset stores the default as it is. Whether there is one to store is for the field type alone to say
(`FieldType.MayBeAbsent`): either it has a default, or undefined is itself a value of the type.

Building a record treats a key that is missing in the same way, and a record can be built from
nothing exactly if each of its fields can be reset.
-/

namespace Schemata

open Schemata.Part

/-! ## Fields that may be absent -/

theorem Value.isAmong_undefined_iff {members : List Value} :
    Value.undefined.isAmong members = true ↔ Value.undefined ∈ members := by
  rw [isAmong, List.any_eq_true]
  constructor
  · rintro ⟨m, hm, hsame⟩
    cases m with
    | undefined => exact hm
    | record r =>
      obtain ⟨T, i, fields, draft⟩ := r
      cases hsame
    | _ => cases hsame
  · exact fun h ↦ ⟨.undefined, h, rfl⟩

namespace FieldType

variable {F : FieldType} {x : Value} {key : String}

/-- Undefined is a value of the type. -/
inductive TakesUndefined : FieldType → Prop where
  | any : TakesUndefined .any
  | optional (inner : FieldType) (d : Value) : TakesUndefined (.optional inner d)
  | enum {members : List Value} (d : Value) : .undefined ∈ members →
    TakesUndefined (.enum members d)

/-- A field of the type may be absent: it has a default, or it takes undefined. -/
def MayBeAbsent (F : FieldType) : Prop := F.defaultValue = .undefined → F.TakesUndefined

theorem read_undefined_eq_ok_iff (hd : F.defaultValue = .undefined) :
    F.read .undefined = .ok x ↔ F.TakesUndefined ∧ x = .undefined := by
  cases F with
  | any => exact read_any_eq_ok_iff.trans (and_iff_right .any).symm
  | bool | num | str | record | union =>
    refine iff_of_false (fun h ↦ ?_) (fun h ↦ ?_)
    · cases h
    · cases h.1
  | optional inner d =>
    obtain rfl : d = .undefined := hd
    rw [and_iff_right (.optional inner .undefined), read_optional_eq_ok_iff]
    rfl
  | enum members d =>
    obtain rfl : d = .undefined := hd
    rw [read_enum_eq_ok_iff]
    constructor
    · rintro ⟨rfl, hmem⟩
      exact ⟨.enum _ (Value.isAmong_undefined_iff.mp hmem), rfl⟩
    · rintro ⟨h, rfl⟩
      cases h with
      | enum _ hmem => exact ⟨rfl, Value.isAmong_undefined_iff.mpr hmem⟩

/-- **What a field makes of undefined** is its default. -/
theorem DefaultFits.readField_undefined_eq_ok_iff (h : F.DefaultFits) (hF : F.TagStrict) :
    F.readField key .undefined = .ok x ↔ F.MayBeAbsent ∧ x = F.defaultValue := by
  have hdefault : F.orDefault .undefined = F.defaultValue := rfl
  rw [readField_eq_ok_iff, hdefault, MayBeAbsent]
  by_cases hd : F.defaultValue = .undefined
  · rw [hd, read_undefined_eq_ok_iff hd]
    simp
  · rw [h.read_defaultValue hF hd, Except.ok.injEq, eq_comm,
      and_iff_right fun hundefined ↦ absurd hundefined hd]

end FieldType

theorem RecordType.stored?_undefined_eq_some_iff {T : RecordType} {key : String} {F : FieldType}
    {x : Value} (hF : T.field? key = some F) (h : F.DefaultFits) (hstrict : F.TagStrict) :
    T.stored? key .undefined = some x ↔ F.MayBeAbsent ∧ x = F.defaultValue := by
  rw [stored?_eq_some_iff, ← h.readField_undefined_eq_ok_iff hstrict]
  constructor
  · rintro ⟨G, hG, hx⟩
    rwa [Option.some.inj (hF.symm.trans hG)]
  · exact fun hx ↦ ⟨F, hF, hx⟩

/-! ## Resets -/

namespace Record

variable {r r' : Record} {F : FieldType} {key : String}

/-- **A reset stores the default of its field**, if the field may be absent. -/
theorem reset_eq_ok_iff (hF : r.type.field? key = some F) (h : F.DefaultFits)
    (hstrict : F.TagStrict) :
    r.reset key = .ok r' ↔ F.MayBeAbsent ∧
      r' = { r with fields := Entries.put r.fields key F.defaultValue, storage := none } := by
  have hwrite : r.reset key = .ok r' ↔ ∃ x, r.type.stored? key .undefined = some x ∧
      r' = { r with fields := Entries.put r.fields key x, storage := none } :=
    (FieldWrite.apply_eq_ok_iff (w := .reset key)).trans (and_iff_right Bool.false_ne_true.elim)
  rw [hwrite]
  simp only [RecordType.stored?_undefined_eq_some_iff hF h hstrict]
  constructor
  · rintro ⟨_, ⟨habsent, rfl⟩, hr'⟩
    exact ⟨habsent, hr'⟩
  · rintro ⟨habsent, hr'⟩
    exact ⟨_, ⟨habsent, rfl⟩, hr'⟩

theorem exists_cause_of_reset {e : RecordError} (hF : r.type.field? key = some F)
    (h : r.reset key = .error e) : ∃ cause, e = .invalidField key cause := by
  rcases set_eq_error_iff.mp h with ⟨hnone, -⟩ | ⟨_, cause, -, -, he⟩
  · rw [hF] at hnone
    cases hnone
  · exact ⟨cause, he⟩

theorem reset_of_reset (hF : r.type.field? key = some F) (h : F.DefaultFits)
    (hstrict : F.TagStrict) (hr' : r.reset key = .ok r') (storage : Option Nat) :
    ({ r' with storage := storage } : Record).reset key = .ok r' := by
  obtain ⟨habsent, rfl⟩ := (reset_eq_ok_iff hF h hstrict).mp hr'
  have hput := Entries.put_eq_self (Entries.get?_put_self r.fields key F.defaultValue)
  refine (reset_eq_ok_iff (r := ⟨r.type, storage, _, r.draft⟩) hF h hstrict).mpr ⟨habsent, ?_⟩
  rw [hput]

/-- `r'` is `r` with `d` under `key`, and nothing else is new but the record itself. -/
structure IsReset (r : Record) (key : String) (d : Value) (r' : Record) : Prop where
  get? : r'.get? key = some d
  get?_other : ∀ other, key ≠ other → r'.get? other = r.get? other
  keys_eq : Entries.keys r'.fields = Entries.keys r.fields
  type_eq : r'.type = r.type
  draft_eq : r'.draft = r.draft
  /-- Only the record itself gets a number, so what is in it is what it was. -/
  settle : ∀ next, (r'.settle next).1 = { r' with storage := some next }
  /-- Resetting the field once more gives the same. -/
  again : ∀ next, (r'.settle next).1.reset key = .ok r'

theorem settle_of_stored_fields {σ : Store} (hfresh : r.storage = none)
    (hfields : ∀ e ∈ r.fields, (value e.2).Throughout (Stored σ)) (next : Nat) :
    (r.settle next).1 = { r with storage := some next } := by
  rw [settle_of_fresh hfresh,
    settleEntries_eq_self fun e he n ↦ Value.settle_of_stored (hfields e he) n]

end Record

/-- A record can be built from nothing exactly if each of its fields can be reset. -/
theorem RecordType.exists_construct_undefined_iff {r : Record}
    (hnodup : (Entries.keys r.type.schema).Nodup) :
    (∃ t, r.type.construct .undefined = .ok t) ↔
      ∀ key ∈ Entries.keys r.type.schema, ∃ r', r.reset key = .ok r' := by
  have haccepted (key : String) :
      (∃ r', r.reset key = .ok r') ↔ (r.type.stored? key .undefined).isSome = true :=
    (FieldWrite.exists_apply_iff (w := .reset key)).trans (and_iff_right Bool.false_ne_true.elim)
  simp only [haccepted]
  exact RecordType.exists_build_iff hnodup

theorem Record.isReset_of_reset {r r' : Record} {key : String} {F : FieldType} {σ : Store}
    (hσ : (record r).Throughout (Stored σ)) (htyped : r.WellTyped)
    (hF : r.type.field? key = some F) (h : F.DefaultFits) (hstrict : F.TagStrict)
    (hr' : r.reset key = .ok r') : r.IsReset key F.defaultValue r' := by
  obtain ⟨-, htype, hfields⟩ := throughout_record.mp hσ
  have hdefault := throughout_defaultValue (throughout_of_field? htype hF)
  have heq := ((reset_eq_ok_iff hF h hstrict).mp hr').2
  have hsettle (next : Nat) : (r'.settle next).1 = { r' with storage := some next } := by
    subst heq
    exact settle_of_stored_fields rfl (throughout_of_mem_put hfields hdefault) next
  refine ⟨?_, fun other hne ↦ get?_of_set hr' hne,
    keys_of_apply (w := .reset key) hr' htyped.keys_eq, type_of_set hr', draft_of_set hr', hsettle,
    fun next ↦ ?_⟩
  · rw [heq]
    exact Entries.get?_put_self _ _ _
  · rw [hsettle next]
    exact reset_of_reset hF h hstrict hr' _

/-- **Every default is valid, and resetting a field stores it.** Let the unions of a reachable
record's field types give no default to their tags.

* A field with a default can be reset. One without can be reset exactly if its type takes undefined,
  which is true of the type of all values, of optionals, and of enumerations with undefined among
  their members. Otherwise the field is named in the error.
* What a reset stores is the default, which is undefined where there is none. The default keeps its
  records, the other fields keep their values, and resetting the field twice is resetting it once.
* A record that is built from a value without the key stores the same.
* A record of the type can be built from nothing exactly if each field can be reset. -/
theorem reset_stores_default {r : Record} (hr : Session.Reachable (.record r))
    (hdefaults : ∀ f ∈ r.type.schema, f.2.NoTagDefault) :
    (∀ key F, r.type.field? key = some F →
      (F.defaultValue ≠ .undefined → ∃ r', r.reset key = .ok r') ∧
      (F.defaultValue = .undefined → ((∃ r', r.reset key = .ok r') ↔ F.TakesUndefined)) ∧
      (∀ e, r.reset key = .error e → ∃ cause, e = .invalidField key cause) ∧
      (∀ r', r.reset key = .ok r' → r.IsReset key F.defaultValue r') ∧
      ∀ v t, v.getD key = .undefined → r.type.construct v = .ok t →
        ∃ r', r.reset key = .ok r' ∧ t.get? key = r'.get? key) ∧
    ((∃ t, r.type.construct .undefined = .ok t) ↔
      ∀ key ∈ Entries.keys r.type.schema, ∃ r', r.reset key = .ok r') := by
  obtain ⟨htyped, hnodup⟩ := Session.wellTyped_of_reachable hr
  obtain ⟨σ, hσ⟩ := Session.exists_stored_of_reachable hr
  have htags := (throughout_record.mp (Session.tagDeclared_of_reachable hr)).2.1
  refine ⟨fun key F hF ↦ ?_, RecordType.exists_construct_undefined_iff hnodup⟩
  have hmem := Entries.mem_of_get?_eq_some hF
  have hfits : F.DefaultFits := Session.defaultFits_of_reachable (Session.reachable_of_field? hr hF)
  have hstrict : F.TagStrict :=
    FieldType.tagStrict_of_noTagDefault (throughout_of_field? htags hF) (hdefaults _ hmem)
  have hreset {r' : Record} : r.reset key = .ok r' ↔ F.MayBeAbsent ∧
      r' = { r with fields := Entries.put r.fields key F.defaultValue, storage := none } :=
    Record.reset_eq_ok_iff hF hfits hstrict
  refine ⟨fun hd ↦ ?_, fun hd ↦ ?_, fun e ↦ Record.exists_cause_of_reset hF,
    fun r' ↦ Record.isReset_of_reset hσ htyped hF hfits hstrict, fun v t hv ht ↦ ?_⟩
  · exact ⟨_, hreset.mpr ⟨fun hundefined ↦ absurd hundefined hd, rfl⟩⟩
  · constructor
    · rintro ⟨r', hr'⟩
      exact (hreset.mp hr').1 hd
    · exact fun htakes ↦ ⟨_, hreset.mpr ⟨fun _ ↦ htakes, rfl⟩⟩
  · -- What was built has something under the key, and this is what the type stores for undefined.
    have hbuild := (RecordType.construct_eq_ok_iff.mp ht).2
    have hkey : key ∈ Entries.keys r.type.schema := List.mem_map_of_mem hmem
    have hstored := (RecordType.exists_build_iff hnodup).mp ⟨t, hbuild⟩ key hkey
    rw [hv] at hstored
    obtain ⟨x, hx⟩ := Option.isSome_iff_exists.mp hstored
    obtain ⟨habsent, rfl⟩ := (RecordType.stored?_undefined_eq_some_iff hF hfits hstrict).mp hx
    refine ⟨_, hreset.mpr ⟨habsent, rfl⟩, ?_⟩
    rw [RecordType.get?_of_build hbuild, hv, hx]
    exact (Entries.get?_put_self _ _ _).symm

/-! ## A profile with a default home -/

namespace Session

/-- A profile has a home by default, may have a nickname, and must have an age. -/
def profileSteps : List Step :=
  [⟨.declare [("city", .literal (.str "Oslo"))] (some "Place"), some "Place"⟩,
   ⟨.construct "Place" .undefined, some "oslo"⟩,
   ⟨.optionalOf .str .undefined, some "Nickname"⟩,
   ⟨.declare [("home", .literal (.name "oslo")), ("nickname", .fieldType "Nickname"),
      ("age", .num)] (some "Profile"), some "Profile"⟩,
   ⟨.construct "Profile" (.map [("home", .map [("city", .str "Bergen")]),
      ("nickname", .str "Ada"), ("age", .num Number.nan)]), some "profile"⟩]

def placeType : RecordType :=
  ⟨0, some "Place", [("city", .str (some "Oslo"))], none, [("city", .field "city")]⟩

def oslo : Record := ⟨placeType, some 1, [("city", .str "Oslo")], false⟩

def profileType : RecordType :=
  ⟨2, some "Profile", [("home", .record placeType (some oslo)),
      ("nickname", .optional (.str none) .undefined), ("age", .num none)], none,
    [("home", .field "home"), ("nickname", .field "nickname"), ("age", .field "age")]⟩

def profile : Record :=
  ⟨profileType, some 3, [("home", .record ⟨placeType, some 4, [("city", .str "Bergen")], false⟩),
    ("nickname", .str "Ada"), ("age", .num .nan)], false⟩

theorem record_profile : (script profileSteps).record "profile" = .ok profile := rfl

/-- The home of a profile can be reset to the very place that is its default, the nickname to
nothing, and the age not at all. So there is no profile made of defaults alone. -/
theorem reset_stores_default_profile :
    (∃ r', profile.reset "home" = .ok r' ∧ r'.get? "home" = some (.record oslo) ∧
      r'.get? "age" = some (.num .nan)) ∧
    (∃ r', profile.reset "nickname" = .ok r' ∧ r'.get? "nickname" = some .undefined) ∧
    (¬∃ r', profile.reset "age" = .ok r') ∧
    ¬∃ t, profileType.construct .undefined = .ok t := by
  have hdefaults : ∀ f ∈ profile.type.schema, f.2.NoTagDefault :=
    List.forall_mem_cons.mpr
      ⟨trivial, List.forall_mem_cons.mpr ⟨trivial, List.forall_mem_singleton.mpr trivial⟩⟩
  obtain ⟨hfields, hconstruct⟩ :=
    reset_stores_default (reachable_of_record record_profile) hdefaults
  obtain ⟨hhome, -, -, hstores, -⟩ := hfields "home" _ rfl
  obtain ⟨-, hnickname, -, hstores', -⟩ := hfields "nickname" _ rfl
  obtain ⟨-, hage, -⟩ := hfields "age" _ rfl
  have hnot : ¬∃ r', profile.reset "age" = .ok r' := by
    rw [hage rfl]
    intro htakes
    cases htakes
  refine ⟨?_, ?_, hnot, ?_⟩
  · have hdefault : (FieldType.record placeType (some oslo)).defaultValue ≠ .undefined := by
      intro h
      cases h
    obtain ⟨r', hr'⟩ := hhome hdefault
    exact ⟨r', hr', (hstores r' hr').get?, (hstores r' hr').get?_other "age" (by decide)⟩
  · obtain ⟨r', hr'⟩ := (hnickname rfl).mpr (.optional _ _)
    exact ⟨r', hr', (hstores' r' hr').get?⟩
  · intro hbuilt
    exact hnot (hconstruct.mp hbuilt "age" (by decide))

end Session

end Schemata
