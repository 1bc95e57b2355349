import Schemata.Proofs.Sessions

/-!
# One level of a nested write

On the way back up a nested write goes through the containers on its path, maps and records. A map
takes what came up as it is; a record reads it through the type of the field. This file says what
one such level does (`Value.exists_of_setIn_cons`) and when the read keeps what came up.

It keeps a container of the kind that was there before, a map or a record of the same type, unless
the field is a union and its tag was written (`FieldType.eq_of_read_sameContainer`). And even a
record that a union then builds anew has the tag that was written (`FieldType.get?_tag_of_read`).

Both need that the records on the path are typed and their unions strict (`Value.StrictAlong`). In a
session it is enough that no union on the path gives its tag a default.
-/

namespace Schemata

/-! ## Containers -/

namespace Value

/-- Two maps, or two records of the same type, both in draft or both not. -/
def SameContainer : Value → Value → Prop
  | .map _, .map _ => True
  | .record s, .record s' => s'.type = s.type ∧ s'.draft = s.draft
  | _, _ => False

/-- What a container stores under a key for a value `v`: a map stores `v` itself, a record what the
type of the field reads. -/
def Puts : Value → String → Value → Value → Prop
  | .map _, _, v, w => w = v
  | .record s, key, v, w => ∃ F, s.type.field? key = some F ∧ F.readField key v = .ok w
  | _, _, _, _ => False

variable {x y c v : Value} {key : String} {path rest whole : List String}

theorem SameContainer.isNullish_left (h : x.SameContainer y) : x.isNullish = false := by
  cases x with
  | map | record => rfl
  | _ => exact h.elim

theorem SameContainer.isNullish_right (h : x.SameContainer y) : y.isNullish = false := by
  cases y with
  | map | record => rfl
  | _ => cases x <;> exact h.elim

theorem SameContainer.isInstanceOf (h : x.SameContainer y) (T : RecordType) :
    y.isInstanceOf T = x.isInstanceOf T := by
  cases x with
  | map =>
    cases y with
    | map => rfl
    | _ => exact h.elim
  | record s =>
    cases y with
    | record s' => rw [Value.isInstanceOf, Value.isInstanceOf, Record.isInstanceOf, h.1]; rfl
    | _ => exact h.elim
  | _ => exact h.elim

/-! ## Paths -/

theorem getIn?_cons_of_get? (h : x.get? key = some c) (rest : List String) :
    x.getIn? (key :: rest) = c.getIn? rest := by
  rw [getIn?, h, Option.bind_some]

/-- What is found below a key is found in the value under the key. -/
theorem exists_of_getIn?_cons (h : x.getIn? (key :: rest) = some c) :
    x.get? key = some (x.getD key) ∧ (x.getD key).getIn? rest = some c := by
  obtain ⟨y, hy, hrest⟩ := Option.bind_eq_some_iff.mp h
  rw [getD, hy, Option.getD_some]
  exact ⟨rfl, hrest⟩

/-- Below a key that is missing there is no record. -/
theorem getIn?_cons_of_getD {s : Record} (h : (x.getD key).getIn? path = some (.record s)) :
    x.getIn? (key :: path) = some (.record s) := by
  cases hget : x.get? key with
  | some y =>
    rw [getD, hget] at h
    rw [getIn?_cons_of_get? hget]
    exact h
  | none =>
    rw [getD, hget] at h
    cases path <;> cases h

/-- **One level of a nested write.** The container stays one of its kind and keeps its other keys.
Under the key it has what it puts there for the value that the write makes below. -/
theorem exists_of_setIn_cons (hx : x.isNullish = false)
    (h : x.setIn whole (key :: rest) v = .ok y) :
    x.SameContainer y ∧ (∀ other, key ≠ other → y.get? other = x.get? other) ∧
      ∃ below w z, (x.getD key).setIn below rest v = .ok w ∧ x.Puts key w z ∧
        y.get? key = some z := by
  cases x with
  | undefined | null => cases hx
  | map entries =>
    obtain ⟨w, hw, rfl⟩ := map_eq_ok_iff.mp h
    refine ⟨trivial, fun other hne ↦ ?_, whole, w, w, hw, rfl, Entries.get?_put_self _ _ _⟩
    rw [get?, Entries.get?_put, if_neg hne]
    rfl
  | record s =>
    obtain ⟨s', hs', rfl⟩ := map_eq_ok_iff.mp h
    obtain ⟨-, w, hw, hset⟩ := Record.update_eq_ok_iff.mp hs'
    refine ⟨⟨Record.type_of_set hset, Record.draft_of_set hset⟩,
      fun other hne ↦ Record.get?_of_set hset hne, ?_⟩
    obtain ⟨F, z, hF, hz, rfl⟩ := Record.set_eq_ok_iff.mp hset
    exact ⟨key :: rest, w, z, hw, ⟨F, hF, hz⟩, Entries.get?_put_self _ _ _⟩
  | _ => cases h

end Value

/-! ## Reading what came up -/

namespace FieldType

/-- The key by which a union, perhaps inside optionals, selects. -/
def tag? : FieldType → Option String
  | .optional inner _ => inner.tag?
  | .union tag _ _ => some tag
  | _ => none
termination_by structural F => F

variable {F : FieldType} {c w z : Value} {key tag : String}

/-- A read that kept a container keeps every container of the kind with the same tag. -/
theorem eq_of_read_sameContainer (hc : F.read c = .ok c) (hlike : c.SameContainer w)
    (htag : ∀ tag, F.tag? = some tag → w.get? tag = c.get? tag) (h : F.read w = .ok z) : z = w := by
  have hw : w.isNullish = false := hlike.isNullish_right
  induction F using FieldType.induction with
  | any => exact read_any_eq_ok_iff.mp h
  | bool d => exact (read_bool_eq_ok_iff.mp h).1
  | num d => exact (read_num_eq_ok_iff.mp h).1
  | str d => exact (read_str_eq_ok_iff.mp h).1
  | record T d =>
    have hinst := RecordType.convert_eq_self_iff.mp (read_record_eq_ok_iff.mp hc).2
    have hconvert := (read_record_eq_ok_iff.mp h).2
    rw [← hlike.isInstanceOf T] at hinst
    rw [RecordType.convert_eq_self_iff.mpr hinst] at hconvert
    exact (Except.ok.inj hconvert).symm
  | optional inner d ih =>
    rw [read_optional_eq_ok_iff, orDefault_of_not_nullish hlike.isNullish_left,
      hlike.isNullish_left] at hc
    rw [read_optional_eq_ok_iff, orDefault_of_not_nullish hw, hw] at h
    exact ih hc (fun tag ht ↦ htag tag (by rwa [tag?])) h
  | enum members d =>
    rw [(read_enum_eq_ok_iff.mp h).1, orDefault_of_not_nullish hw]
  | union tag branches fallback =>
    -- The tag selects the type that it selected before, and this is the type of the record.
    obtain ⟨t, T, ht, hT, hinst⟩ := read_union_eq_self_iff.mp hc
    rw [← htag tag rfl] at ht
    rw [← hlike.isInstanceOf T] at hinst
    rw [read_union_eq_self_iff.mpr ⟨t, T, ht, hT, hinst⟩] at h
    exact (Except.ok.inj h).symm

/-- What a union with a strict tag reads has the tag that it was read from. -/
theorem get?_tag_of_read (hF : F.TagStrict) (htag : F.tag? = some tag) (hw : w.isNullish = false)
    (h : F.read w = .ok z) : z.get? tag = w.get? tag := by
  induction F using FieldType.induction with
  | optional inner d ih =>
    rw [TagStrict] at hF
    rw [tag?] at htag
    rw [read_optional_eq_ok_iff, orDefault_of_not_nullish hw, hw] at h
    exact ih hF htag h
  | union tag' branches fallback =>
    obtain rfl : tag' = tag := Option.some.inj htag
    obtain ⟨t, T, ht, hT, hconvert⟩ := read_union_eq_ok_iff.mp h
    rw [RecordType.convert_eq_ok_iff] at hconvert
    split at hconvert
    · rw [hconvert]
    · obtain ⟨r, hr, rfl⟩ := hconvert
      rw [TagStrict] at hF
      obtain ⟨s, hs, hget | ⟨-, hnone⟩⟩ :=
        get?_tag_of_build (hF T (RecordType.mem_candidates_of_select? hT)) hr
      · rw [hget]
        exact hs
      · cases hnone
  | _ => cases htag

/-- A field that held a container keeps one of its kind that came up, if the tag is the same. -/
theorem Holds.eq_of_readField (hc : F.Holds c) (hF : F.TagStrict) (hlike : c.SameContainer w)
    (htag : ∀ tag, F.tag? = some tag → w.get? tag = c.get? tag) (h : F.readField key w = .ok z) :
    z = w := by
  rw [readField_eq_ok_iff, orDefault_of_not_nullish hlike.isNullish_right] at h
  exact eq_of_read_sameContainer (hc.read hF) hlike htag h

end FieldType

/-! ## Records along a path -/

namespace Value

open Schemata.Part

/-- No union in a record on the path, the record at its end included, gives its tag a default. -/
def NoTagDefaultAlong (x : Value) (path : List String) : Prop :=
  ∀ p s, p <+: path → x.getIn? p = some (.record s) → ∀ f ∈ s.type.schema, f.2.NoTagDefault

/-- The records on the path are typed, and their unions declare their tags without a default. -/
def StrictAlong (x : Value) (path : List String) : Prop :=
  ∀ p s, p <+: path → x.getIn? p = some (.record s) →
    s.WellTyped ∧ (recordType s.type).Throughout TagDeclared ∧ ∀ f ∈ s.type.schema, f.2.TagStrict

variable {x : Value} {key : String} {path rest : List String}

theorem StrictAlong.tail (h : x.StrictAlong (key :: rest)) : (x.getD key).StrictAlong rest :=
  fun p s hp hs ↦ h (key :: p) s ((List.prefix_cons_inj key).mpr hp) (getIn?_cons_of_getD hs)

theorem strictAlong_of_reachable {r : Record} (hr : Session.Reachable (.record r))
    (hdefaults : (Value.record r).NoTagDefaultAlong path) : (Value.record r).StrictAlong path := by
  obtain ⟨_, known, -, hsound⟩ := Session.exists_sound_of_reachable hr
  have htags := throughout_of_record (Session.tagDeclared_of_reachable hr)
  intro p s hp hs
  have htyped := throughout_of_getIn? (throughout_of_record hsound) hs
  have hs' := throughout_record.mp (throughout_value_record.mp (throughout_of_getIn? htags hs)).2
  refine ⟨(throughout_value_record.mp htyped).2.self, hs'.2.1, fun f hf ↦ ?_⟩
  exact FieldType.tagStrict_of_noTagDefault ((throughout_recordType.mp hs'.2.1).2.1 f hf)
    (hdefaults p s hp hs f hf)

theorem getIn?_record (r : Record) (h : path ≠ []) :
    (Value.record r).getIn? path = r.getIn? path := by
  cases path with
  | nil => exact absurd rfl h
  | cons key rest => rfl

end Value

theorem Record.getIn?_singleton (r : Record) (key : String) : r.getIn? [key] = r.get? key :=
  Option.bind_fun_some _

/-- A nested write to a record is one to it as a value. -/
theorem Record.value_setIn {r r' : Record} {path : List String} {v : Value}
    (h : r.setIn path v = .ok r') :
    path ≠ [] ∧ (Value.record r).setIn [] path v = .ok (.record r') := by
  cases path with
  | nil => cases h
  | cons key rest =>
    rw [Value.setIn_record, h]
    exact ⟨by simp, rfl⟩

end Schemata
