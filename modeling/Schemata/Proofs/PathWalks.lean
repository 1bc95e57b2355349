import Schemata.Proofs.Sessions

/-!
# Walks along a path

A nested write can fail twice: on the way down, since the path leads nowhere, or on the way back,
since the type of a field refuses what came up. The way down comes first, and it does not look at
the value that is to be written. So it can be told from the path alone which of the two it is.

`Value.walk` follows a path without writing anything. It ends at a record that lacks the next key,
at a value that has no keys, or at the end of the path. The first two are the errors of the way
down, each with what the walk ended at; after a walk that is complete only a field can refuse, and
it is one through which the walk went (`Walk.Allows`, `Value.allows_setIn`).
-/

namespace Schemata

open Schemata.Part

/-! ## Walking -/

/-- How a walk along a path ends. -/
inductive Walk where
  /-- At a record that does not have the next key. -/
  | unknownKey (s : Record) (key : String)
  /-- With keys left, at a value that has none. -/
  | noContainer (x : Value)
  /-- At the end of the path. These of its keys were taken at records. -/
  | complete (taken : List String)

/-- The walk with one more key, taken at a record, in front. -/
def Walk.through (key : String) : Walk → Walk
  | complete taken => complete (key :: taken)
  | w => w

/-- Follows a path. A record is left through one of its fields and a plain map by any key. After a
missing or nullish value any keys may follow, and a flat value or a list cannot be left. -/
def Value.walk : Value → List String → Walk
  | _, [] => .complete []
  | .record s, key :: rest =>
    match s.get? key with
    | none => .unknownKey s key
    | some x => (x.walk rest).through key
  | .map entries, key :: rest => ((Value.map entries).getD key).walk rest
  | .undefined, _ :: rest | .null, _ :: rest => Value.undefined.walk rest
  | x, _ :: _ => .noContainer x

theorem Walk.exists_of_through {w : Walk} {key : String} {taken : List String}
    (h : w.through key = .complete taken) : ∃ more, w = .complete more ∧ key :: more = taken := by
  cases w with
  | complete more => exact ⟨more, rfl, Walk.complete.inj h⟩
  | _ => cases h

/-- The keys that a walk takes at records are keys of the path, in its order. -/
theorem Value.sublist_of_walk {x : Value} {path taken : List String}
    (h : x.walk path = .complete taken) : taken.Sublist path := by
  induction path generalizing x taken with
  | nil =>
    obtain rfl := Walk.complete.inj h
    exact List.Sublist.slnil
  | cons key rest ih =>
    cases x with
    | record s =>
      rw [walk] at h
      split at h
      · cases h
      · obtain ⟨more, hmore, rfl⟩ := Walk.exists_of_through h
        exact (ih hmore).cons_cons key
    | map | undefined | null => exact (ih h).cons key
    | _ => cases h

/-! ## What a walk allows -/

/-- The results that a write along the path may have after the walk: the error that the walk ended
with, or else success or the refusal of a field through which the walk went. -/
def Walk.Allows {α : Type} : Walk → Except RecordError α → Prop
  | unknownKey s key, result => result = .error (.unknownField key s.type.name)
  | noContainer x, result => ∃ whole, result = .error (.notAContainer whole x.display)
  | complete _, .ok _ => True
  | complete taken, .error e => ∃ key ∈ taken, ∃ cause, e = .invalidField key cause

namespace Walk

variable {α β : Type} {w : Walk} {result : Except RecordError α} {key : String}

theorem allows_map {f : α → β} : w.Allows (result.map f) ↔ w.Allows result := by
  cases result <;> cases w <;> simp [Allows, Except.map]

theorem Allows.through_error {e : RecordError} (h : w.Allows (.error e : Except RecordError α)) :
    (w.through key).Allows (.error e : Except RecordError β) := by
  cases w with
  | unknownKey s key' => exact congrArg Except.error (Except.error.inj h)
  | noContainer x =>
    obtain ⟨whole, he⟩ := h
    exact ⟨whole, congrArg Except.error (Except.error.inj he)⟩
  | complete taken =>
    obtain ⟨key', hkey', hcause⟩ := h
    exact ⟨key', List.mem_cons_of_mem _ hkey', hcause⟩

/-- Only a walk that is complete allows success. -/
theorem Allows.exists_complete {a : α} (h : w.Allows (.ok a : Except RecordError α)) :
    ∃ taken, w = .complete taken := by
  cases w with
  | unknownKey => cases h
  | noContainer =>
    obtain ⟨whole, h⟩ := h
    cases h
  | complete taken => exact ⟨taken, rfl⟩

end Walk

theorem Record.allows_set {r : Record} {key : String} {F : FieldType} (taken : List String)
    (hF : r.type.field? key = some F) (v : Value) :
    (Walk.complete (key :: taken)).Allows (r.set key v) := by
  rw [set_eq, hF]
  simp only [FieldType.readField]
  cases F.read (F.orDefault v) with
  | error cause => exact ⟨key, List.mem_cons_self, cause, rfl⟩
  | ok x => trivial

/-- A write to a field through what is made of its value fails as that does, or as the write of what
was made does. -/
theorem Record.allows_update {r : Record} {key : String} {w : Walk}
    {change : Value → Except RecordError Value} {F : FieldType} (hF : r.type.field? key = some F)
    (h : w.Allows (change (r.getD key))) : (w.through key).Allows (r.update key change) := by
  rw [update_of_field? hF]
  rcases hchange : change (r.getD key) with e | x
  · rw [hchange] at h
    exact h.through_error
  · rw [hchange] at h
    obtain ⟨taken, rfl⟩ := h.exists_complete
    exact r.allows_set taken hF x

/-- **The walk decides how a nested write can end**, whatever the value that is written. -/
theorem Value.allows_setIn {known : RecordType → Prop} {x : Value} (hx : (value x).Sound known)
    (whole path : List String) (v : Value) : (x.walk path).Allows (x.setIn whole path v) := by
  induction path generalizing x whole with
  | nil => trivial
  | cons key rest ih =>
    cases x with
    | record s =>
      have htyped := (sound_record.mp (sound_value_record.mp hx)).1
      rw [walk, setIn]
      cases hget : s.get? key with
      | none =>
        have hF : s.type.field? key = none := by
          rw [← Option.not_isSome_iff_eq_none, ← htyped.isSome_get?, hget]
          exact Bool.false_ne_true
        rw [Record.update, hF]
        rfl
      | some c =>
        obtain ⟨F, hF, hc⟩ := htyped.exists_field? hget
        have hbelow := ih (throughout_of_get? (v := .record s) hx hget) (key :: rest)
        rw [← hc] at hbelow
        exact Walk.allows_map.mpr (Record.allows_update hF (hc ▸ hbelow))
    | map entries => exact Walk.allows_map.mpr (ih (throughout_getD hx key) whole)
    | undefined | null => exact Walk.allows_map.mpr (ih throughout_undefined whole)
    | _ => exact ⟨whole, rfl⟩

/-! ## The errors of a nested write -/

namespace Walk

variable {α : Type} {w : Walk} {result : Except RecordError α}

theorem Allows.eq_unknownField_iff (h : w.Allows result) {key name : String} :
    result = .error (.unknownField key name) ↔
      ∃ s, w = .unknownKey s key ∧ s.type.name = name := by
  constructor
  · rintro rfl
    cases w with
    | unknownKey s key' =>
      obtain ⟨rfl, rfl⟩ := RecordError.unknownField.inj (Except.error.inj h)
      exact ⟨s, rfl, rfl⟩
    | noContainer =>
      obtain ⟨whole, h⟩ := h
      cases h
    | complete =>
      obtain ⟨_, _, cause, h⟩ := h
      cases h
  · rintro ⟨s, rfl, rfl⟩
    exact h

theorem Allows.eq_notAContainer_iff (h : w.Allows result) {shown : String} :
    (∃ whole, result = .error (.notAContainer whole shown)) ↔
      ∃ x, w = .noContainer x ∧ x.display = shown := by
  constructor
  · rintro ⟨whole, rfl⟩
    cases w with
    | unknownKey => cases h
    | noContainer x =>
      obtain ⟨whole', h⟩ := h
      exact ⟨x, rfl, (RecordError.notAContainer.inj (Except.error.inj h)).2.symm⟩
    | complete =>
      obtain ⟨_, _, cause, h⟩ := h
      cases h
  · rintro ⟨x, rfl, rfl⟩
    exact h

theorem Allows.kind_ne {e : RecordError} (h : w.Allows (.error e : Except RecordError α)) :
    e.kind ≠ .invalidArgument := by
  cases w with
  | unknownKey =>
    obtain rfl := Except.error.inj h
    exact nofun
  | noContainer =>
    obtain ⟨whole, h⟩ := h
    obtain rfl := Except.error.inj h
    exact nofun
  | complete =>
    obtain ⟨_, _, cause, rfl⟩ := h
    exact nofun

end Walk

theorem Record.allows_setIn {known : RecordType → Prop} {r : Record} (hr : (record r).Sound known)
    {path : List String} (hpath : path ≠ []) (v : Value) :
    ((Value.record r).walk path).Allows (r.setIn path v) := by
  obtain ⟨key, rest, rfl⟩ := List.exists_cons_of_ne_nil hpath
  have h := Value.allows_setIn (sound_value_record.mpr hr) [] (key :: rest) v
  rwa [Value.setIn_record, Walk.allows_map] at h

namespace Session

/-- **The errors of a path come before those of a value.** A nested write into a reachable record
complains about its argument exactly if there is no path. It fails for an unknown key exactly if the
walk along the path ends at a record without that key, the last key of the path included, and names
the type of that record; and for a path that goes on below a value without keys exactly if the walk
ends there, and shows that value. None of this depends on the value that is written. After a walk
that is complete the write succeeds or a field refuses, one through which the walk went. -/
theorem error_of_setIn_iff_walk {r : Record} (hr : Reachable (.record r)) (path : List String)
    (v : Value) :
    ((∃ e, r.setIn path v = .error e ∧ e.kind = .invalidArgument) ↔ path = []) ∧
      (∀ key name, r.setIn path v = .error (.unknownField key name) ↔
        ∃ s, (Value.record r).walk path = .unknownKey s key ∧ s.type.name = name) ∧
      (∀ shown, (∃ whole, r.setIn path v = .error (.notAContainer whole shown)) ↔
        ∃ x, (Value.record r).walk path = .noContainer x ∧ x.display = shown) ∧
      ∀ taken, path ≠ [] → (Value.record r).walk path = .complete taken →
        taken.Sublist path ∧ ((∃ r', r.setIn path v = .ok r') ∨
          ∃ key ∈ taken, ∃ cause, r.setIn path v = .error (.invalidField key cause)) := by
  obtain ⟨_, known, -, hsound⟩ := exists_sound_of_reachable hr
  by_cases hpath : path = []
  · subst hpath
    have hwalk : (Value.record r).walk [] = .complete [] := rfl
    refine ⟨iff_of_true ⟨_, rfl, rfl⟩ rfl, fun key name ↦ ?_, fun shown ↦ ?_, nofun⟩
    · simp [Record.setIn, hwalk]
    · simp [Record.setIn, hwalk]
  · have hallows := Record.allows_setIn hsound hpath v
    refine ⟨iff_of_false ?_ hpath, fun _ _ ↦ hallows.eq_unknownField_iff,
      fun _ ↦ hallows.eq_notAContainer_iff, ?_⟩
    · rintro ⟨e, he, hkind⟩
      rw [he] at hallows
      exact hallows.kind_ne hkind
    · intro taken _ hwalk
      refine ⟨Value.sublist_of_walk hwalk, ?_⟩
      rw [hwalk] at hallows
      cases hresult : r.setIn path v with
      | ok r' => exact Or.inl ⟨r', rfl⟩
      | error e =>
        rw [hresult] at hallows
        obtain ⟨key, hkey, cause, rfl⟩ := hallows
        exact Or.inr ⟨key, hkey, cause, rfl⟩

/-- In the drawing of a circle the colour of the shape is unknown, there is nothing below whether it
is filled, and a title that is a number is refused. -/
theorem error_of_setIn_drawing :
    drawing.setIn ["shape", "colour"] .null = .error (.unknownField "colour" "Circle") ∧
      (∃ whole, drawing.setIn ["shape", "filled", "by"] .null =
        .error (.notAContainer whole "false")) ∧
      ∃ key ∈ ["title"], ∃ cause, drawing.setIn ["title", "text"] .null =
        .error (.invalidField key cause) := by
  have hdrawing := reachable_of_record record_drawing
  have hcolour := (error_of_setIn_iff_walk hdrawing ["shape", "colour"] .null).2.1
  have hfilled := (error_of_setIn_iff_walk hdrawing ["shape", "filled", "by"] .null).2.2.1
  have htitle := (error_of_setIn_iff_walk hdrawing ["title", "text"] .null).2.2.2
  refine ⟨(hcolour "colour" "Circle").mpr ⟨circle, rfl, rfl⟩,
    (hfilled "false").mpr ⟨.bool false, rfl, rfl⟩, ?_⟩
  refine (htitle ["title"] nofun rfl).2.resolve_left ?_
  rintro ⟨r', h⟩
  cases h

end Session

end Schemata
