import Schemata.Proofs.Committing
import Schemata.Proofs.Sharing

/-!
# Nested writes along stable paths

A nested write should do what its path says and nothing else: put the value at the end of the path,
leave what is beside the path alone, and keep the records that the path goes through the records
they were, of the same type and with the same draft flag.

Each level on the way back is read by the type of the field that owns it, and such a read may build
a new record. Along a *stable* path it does not (`Value.StablePath`). There is a container at each
place the path goes through, so nothing is created on the way, and the path does not go through the
tag of a union, so no record changes its type.

`Value.Updates` says what such a write does to a value. The proof is an induction on the path, in
which one level follows from the level below it (`Value.Updates.cons`).
-/

namespace Schemata

open Schemata.Part

namespace Value

/-- Something other than undefined and null is found at each place that the path goes through, and
no key on it is the tag of the union that the record is held by in which the key is looked up. -/
structure StablePath (x : Value) (path : List String) : Prop where
  present : ∀ p, p <+: path → p ≠ path → ∃ y, x.getIn? p = some y ∧ y.isNullish = false
  untagged : ∀ p key next rest, path = p ++ key :: next :: rest → ∀ s F,
    x.getIn? p = some (.record s) → s.type.field? key = some F → F.tag? ≠ some next

/-- What a write of `v` at the end of a path has made of `x`: the last container has put `v`, what
is beside the path is the same, and the containers on the path are of the same kind. -/
structure Updates (x : Value) (path : List String) (v y : Value) : Prop where
  stored : ∀ p key, path = p ++ [key] →
    ∃ c w, x.getIn? p = some c ∧ c.Puts key v w ∧ y.getIn? path = some w
  kept : ∀ q, ¬path <+: q → ¬q <+: path → y.getIn? q = x.getIn? q
  containers : ∀ p, p <+: path → p ≠ path → ∀ c, x.getIn? p = some c →
    ∃ c', y.getIn? p = some c' ∧ c.SameContainer c'

variable {x y z v : Value} {key : String} {path rest whole : List String}

theorem StablePath.tail (h : x.StablePath (key :: rest)) : (x.getD key).StablePath rest where
  present p hp hne := by
    have hcons : key :: p <+: key :: rest := (List.prefix_cons_inj key).mpr hp
    obtain ⟨y, hy, hnull⟩ := h.present (key :: p) hcons (by simpa using hne)
    exact ⟨y, (exists_of_getIn?_cons hy).2, hnull⟩
  untagged p key' next more hpath s F hs hF :=
    h.untagged (key :: p) key' next more (by rw [hpath, List.cons_append]) s F
      (getIn?_cons_of_getD hs) hF

theorem StablePath.get?_eq (h : x.StablePath (key :: rest)) (hrest : rest ≠ []) :
    x.get? key = some (x.getD key) := by
  have hkey : [key] <+: key :: rest := (List.prefix_cons_inj key).mpr List.nil_prefix
  obtain ⟨y, hy, -⟩ := h.present [key] hkey (by simpa using hrest.symm)
  exact (exists_of_getIn?_cons hy).1

theorem Updates.nil (x v y : Value) : x.Updates [] v y where
  stored p key h := by simp at h
  kept q h _ := absurd List.nil_prefix h
  containers p hp hne := absurd (List.prefix_nil.mp hp) hne

/-- **One level of an update.** The first container keeps its kind and its other keys. Under the
first key of the path it has an update of what was there, unless the path ends with that key. -/
theorem Updates.cons (hlike : x.SameContainer y)
    (hother : ∀ other, key ≠ other → y.get? other = x.get? other) (hz : y.get? key = some z)
    (hkey : rest ≠ [] → x.get? key = some (x.getD key)) (hlast : rest = [] → x.Puts key v z)
    (h : (x.getD key).Updates rest v z) : x.Updates (key :: rest) v y where
  stored p key' hpath := by
    cases p with
    | nil =>
      obtain ⟨rfl, rfl⟩ := List.cons.inj hpath
      exact ⟨x, z, rfl, hlast rfl, getIn?_cons_of_get? hz []⟩
    | cons k p =>
      obtain ⟨rfl, hrest⟩ := List.cons.inj hpath
      obtain ⟨c, w, hc, hputs, hw⟩ := h.stored p key' hrest
      have hne : rest ≠ [] := by simp [hrest]
      exact ⟨c, w, (getIn?_cons_of_get? (hkey hne) p).trans hc, hputs,
        (getIn?_cons_of_get? hz rest).trans hw⟩
  kept q hq hq' := by
    cases q with
    | nil => exact absurd List.nil_prefix hq'
    | cons k q =>
      by_cases hk : key = k
      · subst hk
        rw [List.prefix_cons_inj] at hq hq'
        have hne : rest ≠ [] := by
          rintro rfl
          exact hq List.nil_prefix
        rw [getIn?_cons_of_get? hz, getIn?_cons_of_get? (hkey hne)]
        exact h.kept q hq hq'
      · rw [getIn?, getIn?, hother k hk]
  containers p hp hne c hc := by
    cases p with
    | nil =>
      obtain rfl : x = c := Option.some.inj hc
      exact ⟨y, rfl, hlike⟩
    | cons k p =>
      obtain ⟨rfl, hrest⟩ := List.cons_prefix_cons.mp hp
      have hne' : p ≠ rest := fun heq ↦ hne (by rw [heq])
      have hcons : rest ≠ [] := by
        rintro rfl
        exact hne' (List.prefix_nil.mp hrest)
      rw [getIn?_cons_of_get? (hkey hcons)] at hc
      rw [getIn?_cons_of_get? hz]
      exact h.containers p hrest hne' c hc

/-- On a stable path each level keeps what came up to it: this is a container of the kind that was
there, and its tag was not written. -/
theorem StablePath.eq_of_puts {next : String} {more below : List String} {w : Value}
    (hstable : x.StablePath (key :: next :: more)) (hstrict : x.StrictAlong (key :: next :: more))
    (hw : (x.getD key).setIn below (next :: more) v = .ok w) (hputs : x.Puts key w z) : z = w := by
  obtain ⟨c, hc, hnull⟩ := hstable.tail.present [] List.nil_prefix (by simp)
  obtain rfl : x.getD key = c := Option.some.inj hc
  obtain ⟨hlike, hkept, -⟩ := exists_of_setIn_cons hnull hw
  cases x with
  | map => exact hputs
  | record s =>
    obtain ⟨F, hF, hread⟩ := hputs
    obtain ⟨htyped, -, hstrict⟩ := hstrict [] s List.nil_prefix rfl
    have htag : ∀ tag, F.tag? = some tag → w.get? tag = ((Value.record s).getD key).get? tag := by
      intro tag htag
      refine hkept tag fun heq ↦ ?_
      subst heq
      exact hstable.untagged [] key next more rfl s F rfl hF htag
    have hstrictF := hstrict (key, F) (Entries.mem_of_get?_eq_some hF)
    exact (htyped.holds_getD hF).eq_of_readField hstrictF hlike htag hread
  | _ => exact hputs.elim

theorem updates_of_setIn (hstable : x.StablePath path) (hstrict : x.StrictAlong path)
    (h : x.setIn whole path v = .ok y) : x.Updates path v y := by
  induction path generalizing x y whole with
  | nil => exact .nil x v y
  | cons key rest ih =>
    obtain ⟨x', hx', hnull⟩ := hstable.present [] List.nil_prefix (by simp)
    obtain rfl : x = x' := Option.some.inj hx'
    obtain ⟨hlike, hother, below, w, z, hw, hputs, hz⟩ := exists_of_setIn_cons hnull h
    have hbelow : (x.getD key).Updates rest v w := ih hstable.tail hstrict.tail hw
    cases rest with
    | nil =>
      obtain rfl : v = w := Except.ok.inj hw
      exact .cons hlike hother hz (absurd rfl) (fun _ ↦ hputs) (.nil _ v z)
    | cons next more =>
      obtain rfl : z = w := hstable.eq_of_puts hstrict hw hputs
      exact .cons hlike hother hz (fun _ ↦ hstable.get?_eq (by simp)) (fun h ↦ nomatch h) hbelow

end Value

/-- **A nested write obeys its path.** Let a path be stable in a reachable record, and let the
unions of the records that it goes through give no default to their tags. Then after a write along
the path,

* the value is at the end of the path, as it is if the last container is a map, and as the type of
  the field reads it if that is a record;
* along every path beside it, the very same value is found as before, also once the session has
  numbered the records that were made;
* the record has its type and draft flag, and so has every record at a place that the path goes
  through. -/
theorem setIn_along_stable_path {r r' : Record} {path : List String} {v : Value}
    (hr : Session.Reachable (.record r)) (hstable : (Value.record r).StablePath path)
    (hdefaults : (Value.record r).NoTagDefaultAlong path) (h : r.setIn path v = .ok r') :
    (∃ p key, path = p ++ [key] ∧ ∃ c w, (Value.record r).getIn? p = some c ∧ c.Puts key v w ∧
      r'.getIn? path = some w) ∧
    (∀ q, ¬path <+: q → ¬q <+: path →
      r'.getIn? q = r.getIn? q ∧ ∀ next, (r'.settle next).1.getIn? q = r.getIn? q) ∧
    r'.type = r.type ∧ r'.draft = r.draft ∧
    ∀ p s, p ≠ [] → p <+: path → p ≠ path → r.getIn? p = some (.record s) →
      ∃ s', r'.getIn? p = some (.record s') ∧ s'.type = s.type ∧ s'.draft = s.draft := by
  obtain ⟨hpath, hset⟩ := Record.value_setIn h
  have hstrict := Value.strictAlong_of_reachable hr hdefaults
  have hupdates := Value.updates_of_setIn hstable hstrict hset
  refine ⟨?_, ?_, ?_⟩
  · have hlast := (List.dropLast_concat_getLast hpath).symm
    obtain ⟨c, w, hc, hputs, hw⟩ := hupdates.stored _ _ hlast
    exact ⟨_, _, hlast, c, w, hc, hputs, (Value.getIn?_record r' hpath).symm.trans hw⟩
  · intro q hq hq'
    have hne : q ≠ [] := by
      rintro rfl
      exact hq' List.nil_prefix
    have hkept := hupdates.kept q hq hq'
    rw [Value.getIn?_record r' hne, Value.getIn?_record r hne] at hkept
    obtain ⟨σ, hσ⟩ := Session.exists_stored_of_reachable hr
    have hstored : ∀ w, r'.getIn? q = some w → (value w).Throughout (Stored σ) := by
      intro w hw
      rw [hkept] at hw
      exact throughout_of_record_getIn? hσ hw
    exact ⟨hkept, fun next ↦ (Record.getIn?_settle_of_stored hstored next).trans hkept⟩
  · obtain ⟨c, hc, hlike⟩ := hupdates.containers [] List.nil_prefix hpath.symm _ rfl
    obtain rfl : Value.record r' = c := Option.some.inj hc
    refine ⟨hlike.1, hlike.2, fun p s hp hprefix hne hs ↦ ?_⟩
    rw [← Value.getIn?_record r hp] at hs
    obtain ⟨c, hc, hlike⟩ := hupdates.containers p hprefix hne _ hs
    rw [Value.getIn?_record r' hp] at hc
    cases c with
    | record s' => exact ⟨s', hc, hlike⟩
    | _ => exact hlike.elim

/-! ## A circle in a drawing -/

namespace Session

theorem stablePath_drawing : (Value.record drawing).StablePath ["shape", "filled"] where
  present p hp hne := by
    simp only [List.prefix_cons_iff, List.prefix_nil] at hp
    obtain rfl | ⟨p, rfl, rfl | ⟨p, rfl, rfl⟩⟩ := hp
    · exact ⟨_, rfl, rfl⟩
    · exact ⟨_, rfl, rfl⟩
    · exact absurd rfl hne
  untagged p key next rest hpath s F hs hF := by
    cases p with
    | nil =>
      simp only [List.nil_append, List.cons.injEq] at hpath
      obtain ⟨rfl, rfl, -⟩ := hpath
      obtain rfl : drawing = s := Value.record.inj (Option.some.inj hs)
      obtain rfl : FieldType.union "kind" [("circle", circleType)] none = F := Option.some.inj hF
      decide
    | cons k p =>
      have hlength := congrArg List.length hpath
      simp only [List.length_append, List.length_cons, List.length_nil] at hlength
      omega

/-- The circle of a drawing is filled, and it is the circle of the drawing still. -/
theorem setIn_along_stable_path_drawing : ∃ r',
    drawing.setIn ["shape", "filled"] (.bool true) = .ok r' ∧
      r'.getIn? ["shape", "filled"] = some (.bool true) ∧
      (∀ next, (r'.settle next).1.getIn? ["shape", "kind"] = some (.str "circle")) ∧
      r'.type = drawingType ∧
      ∃ s', r'.getIn? ["shape"] = some (.record s') ∧ s'.type = circleType := by
  have hdefaults : (Value.record drawing).NoTagDefaultAlong ["shape", "filled"] := by
    intro p s hp hs
    simp only [List.prefix_cons_iff, List.prefix_nil] at hp
    obtain rfl | ⟨p, rfl, rfl | ⟨p, rfl, rfl⟩⟩ := hp
    · obtain rfl : drawing = s := Value.record.inj (Option.some.inj hs)
      refine List.forall_mem_cons.mpr ⟨trivial, List.forall_mem_singleton.mpr ?_⟩
      intro T hT d hd
      rw [List.mem_singleton.mp hT] at hd
      exact (FieldType.str.inj (Option.some.inj hd)).symm
    · obtain rfl : circle = s := Value.record.inj (Option.some.inj hs)
      exact List.forall_mem_cons.mpr ⟨trivial, List.forall_mem_singleton.mpr trivial⟩
    · cases hs
  obtain ⟨r', hr'⟩ : ∃ r', drawing.setIn ["shape", "filled"] (.bool true) = .ok r' := ⟨_, rfl⟩
  obtain ⟨⟨p, key, hpath, c, w, hc, hputs, hw⟩, hkept, htype, -, hrecords⟩ :=
    setIn_along_stable_path (reachable_of_record record_drawing) stablePath_drawing hdefaults hr'
  have hpath : ["shape"] ++ ["filled"] = p ++ [key] := hpath
  obtain ⟨rfl, hkey⟩ := List.append_inj' hpath rfl
  obtain rfl : "filled" = key := List.singleton_inj.mp hkey
  obtain rfl : Value.record circle = c := Option.some.inj hc
  obtain ⟨F, hF, hread⟩ := hputs
  obtain rfl : FieldType.bool (some false) = F := Option.some.inj hF
  obtain rfl : Value.bool true = w := Except.ok.inj hread
  refine ⟨r', hr', hw, (hkept ["shape", "kind"] (by decide) (by decide)).2, htype, ?_⟩
  obtain ⟨s', hs', htype', -⟩ := hrecords ["shape"] circle (by decide) (by decide) (by decide) rfl
  exact ⟨s', hs', htype'⟩

end Session

end Schemata
