import Schemata.Proofs.Committing

/-!
# Nested writes that are lost

After a nested write that succeeded something should be found at the end of its path. A write below
a record that is there keeps to this: a key that the type of the record does not declare is an
error. But where the path meets a missing or nullish value the write goes on with plain maps, and
these take every key. The type of the field that owns the outermost of them reads it on the way
back. If it builds a record, the keys that its type does not declare are dropped, and what was
written is dropped with them.

`Value.Undeclared` says that a path runs into this case, and
`getIn?_eq_none_iff_of_setIn` that it is the only one in which a write is lost, as long as no union
on the path gives its tag a default.
-/

namespace Schemata

open Schemata.Part

/-! ## Places that a type declares -/

namespace FieldType

/-- What an optional is optional of, and any other type itself. -/
def core : FieldType → FieldType
  | .optional inner _ => inner.core
  | F => F
termination_by structural F => F

/-- Whether the records that a field of this type builds from maps have a place for the path. Only
a record field can miss one: the other types keep a map as it is or refuse it. -/
def declares (F : FieldType) : List String → Bool
  | [] => true
  | key :: rest =>
    match F.core with
    | .record T _ => (T.field? key).any (·.declares rest)
    | _ => true

end FieldType

namespace Value

/-- Maps within each other along a path, with `v` at its end. -/
def nest : List String → Value → Value
  | [], v => v
  | key :: rest, v => .map [(key, nest rest v)]

/-- The first place on the path that is missing or nullish is the field of a record, and the type of
this field does not declare the rest of the path. -/
def Undeclared (x : Value) (path : List String) : Prop :=
  ∃ p key rest s F, path = p ++ key :: rest ∧ x.getIn? p = some (.record s) ∧
    (s.getD key).isNullish = true ∧ s.type.field? key = some F ∧ F.declares rest = false

variable {x y z v w : Value} {key : String} {path rest whole below : List String}

/-! ## Maps made on the way -/

theorem setIn_of_isNullish (hx : x.isNullish = true) :
    x.setIn whole path v = .ok (nest path v) := by
  induction path generalizing x with
  | nil => rfl
  | cons key rest ih =>
    cases x with
    | undefined | null => rw [setIn, ih rfl, nest]; rfl
    | _ => cases hx

theorem get?_nest (key : String) (rest : List String) (v : Value) :
    (nest (key :: rest) v).get? key = some (nest rest v) := by
  rw [nest, get?, Entries.get?_cons, if_pos rfl]

theorem eq_of_get?_nest {k : String} (h : (nest (key :: rest) v).get? k = some x) :
    k = key ∧ x = nest rest v := by
  rw [nest, get?, Entries.get?_cons] at h
  split at h
  · rename_i hk
    exact ⟨hk.symm, (Option.some.inj h).symm⟩
  · cases h

theorem getIn?_nest (path : List String) (v : Value) : (nest path v).getIn? path = some v := by
  induction path with
  | nil => rfl
  | cons key rest ih => rw [getIn?_cons_of_get? (get?_nest key rest v), ih]

end Value

namespace FieldType

variable {F : FieldType} {v z : Value} {key : String} {path : List String}

theorem declares_optional (inner : FieldType) (d : Value) (path : List String) :
    (optional inner d).declares path = inner.declares path := by
  cases path <;> rfl

/-- A record built from nested maps has what its type reads from the map below the first key, and
without a field for this key it drops it. -/
theorem get?_of_build_nest {T : RecordType} {r : Record} {rest : List String}
    (h : T.build (Value.nest (key :: rest) v) = .ok r) :
    (T.field? key = none ∧ r.get? key = none) ∨
      ∃ G x, T.field? key = some G ∧ G.readField key (Value.nest rest v) = .ok x ∧
        r.get? key = some x := by
  obtain ⟨fields, hfields, rfl⟩ := RecordType.build_eq_ok_iff.mp h
  cases hG : T.field? key with
  | none =>
    refine Or.inl ⟨rfl, ?_⟩
    rw [Record.get?, Entries.get?_eq_none_iff, keys_of_readFields hfields,
      ← Entries.get?_eq_none_iff]
    exact hG
  | some G =>
    obtain ⟨x, hx, hget⟩ := get?_readFields hfields hG
    rw [Value.getD, Value.get?_nest, Option.getD_some] at hx
    exact Or.inr ⟨G, x, rfl, hx, hget⟩

/-- A union makes something of nested maps only if the outermost holds the tag and nothing else. -/
theorem get?_of_read_nest {tag next : String} {branches : List (String × RecordType)}
    {fallback : Option RecordType} {rest : List String}
    (hF : (union tag branches fallback).TagDeclared)
    (h : (union tag branches fallback).read (Value.nest (next :: rest) v) = .ok z) :
    rest = [] ∧ ∃ t, z.get? next = some t := by
  obtain ⟨t, T, ht, hT, hconvert⟩ := read_union_eq_ok_iff.mp h
  obtain ⟨r, hr, rfl⟩ := RecordType.convert_eq_ok_iff.mp hconvert
  obtain ⟨rfl, rfl⟩ := Value.eq_of_get?_nest ht
  obtain ⟨d, hd⟩ := hF T (RecordType.mem_candidates_of_select? hT)
  obtain ⟨s, hs, htag⟩ := get?_tag_of_build hd hr
  refine ⟨?_, .str s, hs⟩
  -- A tag is a text or missing, so the path ends with it.
  rw [Value.getD, Value.get?_nest, Option.getD_some] at htag
  cases rest with
  | nil => rfl
  | cons key more => rcases htag with htag | ⟨htag, -⟩ <;> cases htag

/-- **What a field makes of nested maps** has a place for the path exactly if the type declares
it. -/
theorem isSome_getIn?_of_readField (hF : (fieldType F).Throughout Part.TagDeclared)
    (h : F.readField key (Value.nest path v) = .ok z) :
    (z.getIn? path).isSome = F.declares path := by
  induction path generalizing F key z with
  | nil => rfl
  | cons next rest ih =>
    rw [readField_eq_ok_iff, orDefault_of_not_nullish rfl] at h
    -- Optionals leave the maps to the type inside them.
    induction F using FieldType.induction with
    | any =>
      rw [read_any_eq_ok_iff.mp h, Value.getIn?_nest]
      rfl
    | bool | num | str => cases h
    | record T d =>
      obtain ⟨r, hr, rfl⟩ := RecordType.convert_eq_ok_iff.mp (read_record_eq_ok_iff.mp h).2
      have hdeclares : (record T d).declares (next :: rest) =
          (T.field? next).any (·.declares rest) := rfl
      rw [hdeclares, Value.getIn?, Value.get?]
      rcases get?_of_build_nest hr with ⟨hG, hget⟩ | ⟨G, x, hG, hx, hget⟩
      · rw [hG, hget]
        rfl
      · have hT := (throughout_fieldType_record.mp hF).2.1
        rw [hG, hget, Option.any_some]
        exact ih (throughout_of_field? hT hG) hx
    | optional inner d ihF =>
      rw [read_optional_eq_ok_iff, orDefault_of_not_nullish rfl] at h
      rw [declares_optional]
      exact ihF (throughout_fieldType_optional.mp hF).2.1 h
    | enum members d =>
      rw [(read_enum_eq_ok_iff.mp h).1, orDefault_of_not_nullish rfl, Value.getIn?_nest]
      rfl
    | union tag branches fallback =>
      obtain ⟨rfl, t, ht⟩ := get?_of_read_nest hF.self h
      rw [Value.getIn?_cons_of_get? ht]
      rfl

end FieldType

/-! ## When a write is lost -/

namespace Value

variable {x y z v w : Value} {key : String} {path rest whole below : List String}

theorem not_undeclared_of_isNullish (hx : x.isNullish = true) : ¬x.Undeclared path := by
  rintro ⟨p, key, rest, s, F, -, hs, -⟩
  cases x with
  | undefined | null => cases p <;> cases hs
  | _ => cases hx

theorem undeclared_cons_iff : x.Undeclared (key :: rest) ↔
    (∃ s F, x = .record s ∧ (s.getD key).isNullish = true ∧ s.type.field? key = some F ∧
      F.declares rest = false) ∨ (x.getD key).Undeclared rest := by
  constructor
  · rintro ⟨p, k, more, s, F, hpath, hs, hnull, hF, hdeclares⟩
    cases p with
    | nil =>
      obtain ⟨rfl, rfl⟩ := List.cons.inj hpath
      exact Or.inl ⟨s, F, Option.some.inj hs, hnull, hF, hdeclares⟩
    | cons k' p =>
      obtain ⟨rfl, hrest⟩ := List.cons.inj hpath
      exact Or.inr ⟨p, k, more, s, F, hrest, (exists_of_getIn?_cons hs).2, hnull, hF, hdeclares⟩
  · rintro (⟨s, F, rfl, hnull, hF, hdeclares⟩ | ⟨p, k, more, s, F, rfl, hs, hnull, hF, hdeclares⟩)
    · exact ⟨[], key, rest, s, F, rfl, rfl, hnull, hF, hdeclares⟩
    · exact ⟨key :: p, k, more, s, F, rfl, getIn?_cons_of_getD hs, hnull, hF, hdeclares⟩

theorem isSome_getIn?_of_puts (hstrict : x.StrictAlong (key :: rest))
    (hx : (x.getD key).isNullish = false) (hw : (x.getD key).setIn below rest v = .ok w)
    (hputs : x.Puts key w z) :
    (z.getIn? rest).isSome = (w.getIn? rest).isSome := by
  cases x with
  | map => rw [hputs]
  | record s =>
    obtain ⟨F, hF, hread⟩ := hputs
    obtain ⟨htyped, -, hstrict⟩ := hstrict [] s List.nil_prefix rfl
    have hstrictF := hstrict (key, F) (Entries.mem_of_get?_eq_some hF)
    cases rest with
    | nil => rfl
    | cons next more =>
      obtain ⟨hlike, hkept, -⟩ := exists_of_setIn_cons hx hw
      by_cases htag : F.tag? = some next
      · -- The tag was written, and the record may be of another type now, but it has the tag.
        have hnull : w.isNullish = false := hlike.isNullish_right
        rw [FieldType.readField_eq_ok_iff, FieldType.orDefault_of_not_nullish hnull] at hread
        rw [getIn?, getIn?, FieldType.get?_tag_of_read hstrictF htag hnull hread]
      · have heq : z = w := by
          refine (htyped.holds_getD hF).eq_of_readField hstrictF hlike (fun tag ht ↦ ?_) hread
          refine hkept tag fun hnext ↦ htag ?_
          rw [hnext, ht]
        rw [heq]
  | _ => exact hputs.elim

/-- **One level of a lost write.** What came up is lost where it is put, or was lost below. -/
theorem getIn?_eq_none_iff_of_puts (hstrict : x.StrictAlong (key :: rest))
    (hw : (x.getD key).setIn below rest v = .ok w) (hputs : x.Puts key w z)
    (hbelow : w.getIn? rest = none ↔ (x.getD key).Undeclared rest) :
    z.getIn? rest = none ↔ x.Undeclared (key :: rest) := by
  rw [undeclared_cons_iff]
  cases x with
  | map entries =>
    obtain rfl : z = w := hputs
    rw [or_iff_right (fun ⟨s, F, hs, _⟩ ↦ nomatch hs)]
    exact hbelow
  | record s =>
    by_cases hnull : ((Value.record s).getD key).isNullish = true
    · -- Nothing was there, so what came up are new maps, and the type of the field reads them.
      rw [or_iff_left (not_undeclared_of_isNullish hnull)]
      obtain rfl : nest rest v = w := by
        rw [← Except.ok.injEq, ← hw]
        exact (setIn_of_isNullish hnull).symm
      obtain ⟨F, hF, hread⟩ := hputs
      have hplace : (z.getIn? rest).isSome = F.declares rest := by
        obtain ⟨-, htype, -⟩ := hstrict [] s List.nil_prefix rfl
        exact FieldType.isSome_getIn?_of_readField (throughout_of_field? htype hF) hread
      rw [← Option.not_isSome_iff_eq_none, hplace, Bool.not_eq_true]
      constructor
      · exact fun h ↦ ⟨s, F, rfl, hnull, hF, h⟩
      · rintro ⟨s', F', hs, -, hF', h⟩
        obtain rfl := Value.record.inj hs
        obtain rfl : F = F' := Option.some.inj (hF.symm.trans hF')
        exact h
    · have hplace := isSome_getIn?_of_puts hstrict (Bool.eq_false_iff.mpr hnull) hw hputs
      rw [or_iff_right, ← hbelow, ← Option.not_isSome_iff_eq_none, hplace,
        Option.not_isSome_iff_eq_none]
      rintro ⟨s', F, hs, hnull', -⟩
      obtain rfl := Value.record.inj hs
      exact hnull hnull'
  | _ => exact hputs.elim

theorem getIn?_eq_none_iff_undeclared (hstrict : x.StrictAlong path)
    (h : x.setIn whole path v = .ok y) : y.getIn? path = none ↔ x.Undeclared path := by
  induction path generalizing x y whole with
  | nil =>
    refine iff_of_false (fun hy ↦ nomatch hy) ?_
    rintro ⟨p, key, rest, s, F, hpath, -⟩
    simp at hpath
  | cons key rest ih =>
    by_cases hx : x.isNullish = true
    · rw [setIn_of_isNullish hx, Except.ok.injEq] at h
      rw [← h, getIn?_nest]
      exact iff_of_false (fun hy ↦ nomatch hy) (not_undeclared_of_isNullish hx)
    · obtain ⟨-, -, below, w, z, hw, hputs, hz⟩ :=
        exists_of_setIn_cons (Bool.eq_false_iff.mpr hx) h
      rw [getIn?_cons_of_get? hz]
      exact getIn?_eq_none_iff_of_puts hstrict hw hputs (ih hstrict.tail hw)

end Value

/-- **When a nested write is lost.** Let the unions of the records on a path give no default to
their tags. After a write along the path that succeeded there is nothing at its end exactly if the
path is undeclared: it runs out of what is there at the field of a record, and the type of the field
is a record type, perhaps optional, that does not declare the keys that follow. -/
theorem getIn?_eq_none_iff_of_setIn {r r' : Record} {path : List String} {v : Value}
    (hr : Session.Reachable (.record r)) (hdefaults : (Value.record r).NoTagDefaultAlong path)
    (h : r.setIn path v = .ok r') :
    r'.getIn? path = none ↔ (Value.record r).Undeclared path := by
  obtain ⟨hpath, hset⟩ := Record.value_setIn h
  rw [← Value.getIn?_record r' hpath]
  exact Value.getIn?_eq_none_iff_undeclared (Value.strictAlong_of_reachable hr hdefaults) hset

/-! ## A parcel without a sender -/

namespace Session

/-- A parcel that has no sender; a sender has a name and nothing else. -/
def parcelSteps : List Step :=
  [⟨.declare [("name", .literal (.str "unknown"))] (some "Sender"), some "Sender"⟩,
   ⟨.optionalOf (.recordType "Sender") .undefined, some "MaybeSender"⟩,
   ⟨.declare [("sender", .fieldType "MaybeSender")] (some "Parcel"), some "Parcel"⟩,
   ⟨.construct "Parcel" (.map []), some "parcel"⟩,
   ⟨.setIn "parcel" ["sender", "name"] (.str "Ada"), some "sent"⟩]

def senderType : RecordType :=
  ⟨0, some "Sender", [("name", .str (some "unknown"))], none, [("name", .field "name")]⟩

def parcelType : RecordType :=
  ⟨1, some "Parcel", [("sender", .optional (.record senderType none) .undefined)], none,
    [("sender", .field "sender")]⟩

def parcel : Record := ⟨parcelType, some 2, [("sender", .undefined)], false⟩

theorem record_parcel : (script parcelSteps).record "parcel" = .ok parcel := rfl

theorem noTagDefaultAlong_parcel (path : List String) :
    (Value.record parcel).NoTagDefaultAlong path := by
  intro p s _ hs
  cases p with
  | nil =>
    obtain rfl : parcel = s := Value.record.inj (Option.some.inj hs)
    exact List.forall_mem_singleton.mpr trivial
  | cons key rest =>
    obtain ⟨y, hy, hrest⟩ := Option.bind_eq_some_iff.mp hs
    have hmem : (key, y) ∈ [("sender", Value.undefined)] := Entries.mem_of_get?_eq_some hy
    obtain ⟨-, rfl⟩ := Prod.mk.inj (List.mem_singleton.mp hmem)
    cases rest <;> cases hrest

/-- The city of the sender that a parcel does not have is lost. The name is not. -/
theorem getIn?_eq_none_iff_of_setIn_parcel :
    (∃ r', parcel.setIn ["sender", "city"] (.str "Oslo") = .ok r' ∧
      r'.getIn? ["sender", "city"] = none) ∧
    ∃ r', parcel.setIn ["sender", "name"] (.str "Ada") = .ok r' ∧
      r'.getIn? ["sender", "name"] ≠ none := by
  have hr := reachable_of_record record_parcel
  constructor
  · obtain ⟨r', hr'⟩ : ∃ r', parcel.setIn ["sender", "city"] (.str "Oslo") = .ok r' := ⟨_, rfl⟩
    refine ⟨r', hr', ?_⟩
    exact (getIn?_eq_none_iff_of_setIn hr (noTagDefaultAlong_parcel _) hr').mpr
      ⟨[], "sender", ["city"], parcel, _, rfl, rfl, rfl, rfl, rfl⟩
  · obtain ⟨r', hr'⟩ : ∃ r', parcel.setIn ["sender", "name"] (.str "Ada") = .ok r' := ⟨_, rfl⟩
    refine ⟨r', hr', fun hnone ↦ ?_⟩
    have hlost := (getIn?_eq_none_iff_of_setIn hr (noTagDefaultAlong_parcel _) hr').mp hnone
    obtain ⟨s, F, hs, -, hF, hdeclares⟩ | hbelow := Value.undeclared_cons_iff.mp hlost
    · obtain rfl : parcel = s := Value.record.inj hs
      obtain rfl : FieldType.optional (.record senderType none) .undefined = F :=
        Option.some.inj hF
      cases hdeclares
    · exact Value.not_undeclared_of_isNullish rfl hbelow

/-- A write to a city that senders do not have succeeds on a parcel without a sender. It gives the
parcel a sender, and the city is nowhere. On the same parcel with a sender it is an error. -/
theorem city_of_sender_lost :
    Reachable (.record parcel) ∧
      (∃ r', parcel.setIn ["sender", "city"] (.str "Oslo") = .ok r' ∧
        r'.getIn? ["sender", "name"] = some (.str "unknown") ∧
          r'.getIn? ["sender", "city"] = none) ∧
      ∃ sent, (script parcelSteps).record "sent" = .ok sent ∧ sent.type = parcelType ∧
        sent.setIn ["sender", "city"] (.str "Oslo") = .error (.unknownField "city" "Sender") :=
  ⟨reachable_of_record record_parcel, ⟨_, rfl, rfl, rfl⟩, _, rfl, rfl, rfl⟩

end Session

end Schemata
