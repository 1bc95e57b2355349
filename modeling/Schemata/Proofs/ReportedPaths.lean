import Schemata.Proofs.LostWrites

/-!
# The path in an error of a nested write

A nested write that meets a value without keys, and still has keys to follow, reports a path. It
should be the path that the caller gave. Below plain maps it is, because the write hands that path
down with it. At a record, though, it starts over with a nested write into this record, and the path
that is handed down from there is only the rest of the path.

So what is reported are the last keys of the path, from the innermost record on
(`Value.reported_of_setIn`). This is the whole path exactly if there is no record on it beside the
one that is written to (`reportedPath_of_setIn`).
-/

namespace Schemata

/-! ## Texts of paths -/

/-- The rest of a path is written differently from the path. -/
theorem intercalate_ne_append {outer rest : List String} (houter : outer ≠ []) (hrest : rest ≠ []) :
    ", ".intercalate rest ≠ ", ".intercalate (outer ++ rest) := by
  intro h
  have hlength := congrArg String.length h
  rw [String.intercalate_append_of_ne_nil houter hrest, String.length_append,
    String.length_append] at hlength
  have hseparator : (", " : String).length = 2 := rfl
  omega

/-! ## The innermost record -/

theorem Record.set_ne_notAContainer {r : Record} {key shown : String} {v : Value}
    {path : List String} : r.set key v ≠ .error (.notAContainer path shown) := by
  intro h
  rcases set_eq_error_iff.mp h with ⟨-, he⟩ | ⟨F, cause, -, -, he⟩
  · cases he
  · cases he

namespace Value

variable {x v : Value} {s : Record} {key shown : String} {path rest whole reported : List String}

/-- No record is found along the path, neither at its start nor at its end. -/
def RecordFree (x : Value) (path : List String) : Prop :=
  ∀ p s, p <+: path → x.getIn? p ≠ some (.record s)

/-- The keys that are left of a path behind the innermost record on it. -/
def BehindInnermost (x : Value) (path rest : List String) : Prop :=
  rest ≠ [] ∧ ∃ outer, path = outer ++ rest ∧ (∃ s, x.getIn? outer = some (.record s)) ∧
    ∀ p s, p <+: path → x.getIn? p = some (.record s) → p <+: outer

theorem getIn?_cons_eq_record_iff :
    x.getIn? (key :: rest) = some (.record s) ↔ (x.getD key).getIn? rest = some (.record s) :=
  ⟨fun h ↦ (exists_of_getIn?_cons h).2, getIn?_cons_of_getD⟩

theorem RecordFree.cons (hx : x.record? = none) (h : (x.getD key).RecordFree rest) :
    x.RecordFree (key :: rest) := by
  intro p s hp hs
  cases p with
  | nil =>
    obtain rfl : x = .record s := Option.some.inj hs
    cases hx
  | cons k p =>
    obtain ⟨rfl, hrest⟩ := List.cons_prefix_cons.mp hp
    exact h p s hrest (getIn?_cons_eq_record_iff.mp hs)

theorem BehindInnermost.cons (h : (x.getD key).BehindInnermost rest reported) :
    x.BehindInnermost (key :: rest) reported := by
  obtain ⟨hne, outer, rfl, ⟨s, hs⟩, hinner⟩ := h
  refine ⟨hne, key :: outer, rfl, ⟨s, getIn?_cons_of_getD hs⟩, ?_⟩
  intro p s' hp hs'
  cases p with
  | nil => exact List.nil_prefix
  | cons k p =>
    obtain ⟨rfl, hrest⟩ := List.cons_prefix_cons.mp hp
    exact (List.prefix_cons_inj k).mpr (hinner p s' hrest (getIn?_cons_eq_record_iff.mp hs'))

theorem behindInnermost_record (h : ((Value.record s).getD key).RecordFree rest) :
    (Value.record s).BehindInnermost (key :: rest) (key :: rest) := by
  refine ⟨List.cons_ne_nil key rest, [], rfl, ⟨s, rfl⟩, ?_⟩
  intro p s' hp hs'
  cases p with
  | nil => exact List.nil_prefix
  | cons k p =>
    obtain ⟨rfl, hrest⟩ := List.cons_prefix_cons.mp hp
    exact absurd (getIn?_cons_eq_record_iff.mp hs') (h p s' hrest)

theorem recordFree_of_get?_eq_none (hx : x.record? = none) (h : ∀ key, x.get? key = none) :
    x.RecordFree path := by
  intro p s _ hs
  cases p with
  | nil =>
    obtain rfl : x = .record s := Option.some.inj hs
    cases hx
  | cons key p =>
    rw [getIn?, h key] at hs
    cases hs

/-- **What an error reports.** A nested write that ends at a value without keys reports the path
that was handed to it, if there is no record on the way. Otherwise it reports the keys behind the
innermost one. -/
theorem reported_of_setIn (h : x.setIn whole path v = .error (.notAContainer reported shown)) :
    reported = whole ∧ x.RecordFree path ∨ x.BehindInnermost path reported := by
  induction path generalizing x whole with
  | nil => cases h
  | cons key rest ih =>
    cases x with
    | record s =>
      -- The write into the record hands down a path of its own, and that is reported below it.
      rw [setIn, map_eq_error_iff, Record.update] at h
      split at h
      · cases h
      · split at h
        · rename_i hbelow
          obtain rfl := Except.error.inj h
          rcases ih hbelow with ⟨rfl, hfree⟩ | hinner
          · exact Or.inr (behindInnermost_record hfree)
          · exact Or.inr (BehindInnermost.cons (x := .record s) hinner)
        · exact absurd h Record.set_ne_notAContainer
    | map entries =>
      rcases ih (map_eq_error_iff.mp h) with ⟨rfl, hfree⟩ | hinner
      · exact Or.inl ⟨rfl, RecordFree.cons (x := .map entries) rfl hfree⟩
      · exact Or.inr (BehindInnermost.cons (x := .map entries) hinner)
    | undefined | null =>
      rw [setIn_of_isNullish rfl] at h
      cases h
    | _ =>
      obtain ⟨rfl, -⟩ := RecordError.notAContainer.inj (Except.error.inj h)
      exact Or.inl ⟨rfl, recordFree_of_get?_eq_none rfl fun _ ↦ rfl⟩

end Value

/-- **The path that an error reports.** If a nested write ends at a value without keys, the path in
its error is what is left of the path behind the innermost record on it, where the record that is
written to counts as the outermost. So the error names all keys of the path exactly if no other
record is found along the path. -/
theorem reportedPath_of_setIn {r : Record} {path reported : List String} {v : Value}
    {shown : String} (h : r.setIn path v = .error (.notAContainer reported shown)) :
    (∃ outer, path = outer ++ reported ∧
      (∃ s, (Value.record r).getIn? outer = some (.record s)) ∧
        ∀ p s, p <+: path → (Value.record r).getIn? p = some (.record s) → p <+: outer) ∧
    (", ".intercalate reported = ", ".intercalate path ↔
      ∀ p s, p <+: path → r.getIn? p ≠ some (.record s)) := by
  have hbehind : (Value.record r).BehindInnermost path reported := by
    cases path with
    | nil => cases h
    | cons key rest =>
      have hvalue : (Value.record r).setIn [] (key :: rest) v =
          .error (.notAContainer reported shown) := by
        rw [Value.setIn_record, h]
        rfl
      refine (Value.reported_of_setIn hvalue).resolve_left ?_
      rintro ⟨-, hfree⟩
      exact hfree [] r List.nil_prefix rfl
  obtain ⟨hne, outer, rfl, houter, hinner⟩ := hbehind
  refine ⟨⟨outer, rfl, houter, hinner⟩, ?_⟩
  constructor
  · intro htext p s hp hs
    have hnil : outer = [] :=
      Decidable.byContradiction fun hcut ↦ intercalate_ne_append hcut hne htext
    have hpath : p ≠ [] := by
      rintro rfl
      cases hs
    rw [← Value.getIn?_record r hpath] at hs
    have hprefix := hinner p s hp hs
    rw [hnil, List.prefix_nil] at hprefix
    exact hpath hprefix
  · intro hfree
    obtain ⟨s, hs⟩ := houter
    cases outer with
    | nil => rfl
    | cons key rest =>
      rw [Value.getIn?_record r (List.cons_ne_nil key rest)] at hs
      exact absurd hs (hfree (key :: rest) s (List.prefix_append _ _))

/-! ## A person with two addresses -/

namespace Session

/-- A person with an address that is a record, and with the same address in a map. -/
def personSteps : List Step :=
  [⟨.declare [("street", .str)] (some "Address"), some "Address"⟩,
   ⟨.declare [("home", .recordType "Address"), ("notes", .any)] (some "Person"), some "Person"⟩,
   ⟨.construct "Person" (.map [("home", .map [("street", .str "Elm")]),
      ("notes", .map [("home", .map [("street", .str "Elm")])])]), some "person"⟩]

def addressType : RecordType :=
  ⟨0, some "Address", [("street", .str none)], none, [("street", .field "street")]⟩

def personType : RecordType :=
  ⟨1, some "Person", [("home", .record addressType none), ("notes", .any)], none,
    [("home", .field "home"), ("notes", .field "notes")]⟩

def person : Record :=
  ⟨personType, some 2,
    [("home", .record ⟨addressType, some 3, [("street", .str "Elm")], false⟩),
     ("notes", .map [("home", .map [("street", .str "Elm")])])], false⟩

theorem record_person : (script personSteps).record "person" = .ok person := rfl

/-- Below the maps of a person the whole path is reported, below the record a part of it. -/
theorem reportedPath_of_setIn_person :
    (∃ reported, person.setIn ["notes", "home", "street", "number"] (.str "7") =
        .error (.notAContainer reported "Elm") ∧
      ", ".intercalate reported = ", ".intercalate ["notes", "home", "street", "number"]) ∧
    ∃ reported outer, person.setIn ["home", "street", "number"] (.str "7") =
        .error (.notAContainer reported "Elm") ∧
      ["home", "street", "number"] = outer ++ reported ∧ ["home"] <+: outer := by
  constructor
  · have herror : person.setIn ["notes", "home", "street", "number"] (.str "7") =
        .error (.notAContainer ["notes", "home", "street", "number"] "Elm") := rfl
    refine ⟨_, herror, (reportedPath_of_setIn herror).2.mpr ?_⟩
    intro p s hp hs
    simp only [List.prefix_cons_iff, List.prefix_nil] at hp
    obtain rfl | ⟨p, rfl, rfl | ⟨p, rfl, rfl | ⟨p, rfl, rfl | ⟨p, rfl, rfl⟩⟩⟩⟩ := hp <;> cases hs
  · have herror : person.setIn ["home", "street", "number"] (.str "7") =
        .error (.notAContainer ["street", "number"] "Elm") := rfl
    obtain ⟨outer, houter, -, hinner⟩ := (reportedPath_of_setIn herror).1
    exact ⟨_, outer, herror, houter, hinner ["home"] _ (by decide) rfl⟩

/-- A write below the street of an address that is a record complains about a path that does not
name the address. -/
theorem home_not_reported :
    Reachable (.record person) ∧
      person.setIn ["home", "street", "number"] (.str "7") =
        .error (.notAContainer ["street", "number"] "Elm") ∧
      ", ".intercalate ["street", "number"] ≠ ", ".intercalate ["home", "street", "number"] :=
  ⟨reachable_of_record record_person, rfl, by decide⟩

end Session

end Schemata
