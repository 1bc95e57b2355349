import Schemata.Proofs.NewNumbers

/-!
# Nested writes along a path that is put together

A path that leads to a record can be continued in it. A nested write along both pieces at once is
the same as one that changes the record along the second piece and puts it back along the first. So
whoever holds the inner record need not know where it lies, and an error that comes from inside
looks no different from outside.

The equation comes from the recursion of nested writes, by induction on the first piece
(`Value.setIn_append`). It says nothing about sessions, in which the changed record is numbered
before it is put back. That this makes no difference is what `Record.setIn_settle` is for.
-/

namespace Schemata

open Schemata.Part

variable {known : RecordType → Prop}

private theorem Record.setIn_append_of_child {r s : Record} {key : String} {F : FieldType}
    {p q : List String} {v : Value} (hF : r.type.field? key = some F)
    (hchild : ∀ whole whole', (r.getD key).setIn whole (p ++ q) v =
      s.setIn q v >>= fun s' ↦ (r.getD key).setIn whole' p (.record s')) :
    r.setIn (key :: (p ++ q)) v = s.setIn q v >>= fun s' ↦ r.setIn (key :: p) (.record s') := by
  calc r.setIn (key :: (p ++ q)) v
      = (r.getD key).setIn (key :: (p ++ q)) (p ++ q) v >>= r.set key := setIn_of_field? hF _ v
    _ = (s.setIn q v >>= fun s' ↦ (r.getD key).setIn (key :: p) p (.record s')) >>= r.set key := by
      rw [hchild]
    _ = s.setIn q v >>= fun s' ↦ (r.getD key).setIn (key :: p) p (.record s') >>= r.set key :=
      bind_assoc _ _ _
    _ = s.setIn q v >>= fun s' ↦ r.setIn (key :: p) (.record s') := by
      simp only [setIn_of_field? hF]

/-- **Nested writes along a path in two pieces**, where the first one leads to a record. No error
can then arise on the way down that first piece, so it does not matter which path such an error
would report. -/
theorem Value.setIn_append {x : Value} {s : Record} {p q : List String}
    (hx : (value x).Sound known) (hs : x.getIn? p = some (.record s)) (hq : q ≠ [])
    (whole whole' : List String) (v : Value) :
    x.setIn whole (p ++ q) v = s.setIn q v >>= fun s' ↦ x.setIn whole' p (.record s') := by
  induction p generalizing x whole whole' with
  | nil =>
    obtain ⟨key, rest, rfl⟩ := List.exists_cons_of_ne_nil hq
    obtain rfl : x = .record s := Option.some.inj hs
    rw [List.nil_append, setIn_record]
    rcases s.setIn (key :: rest) v with e | s' <;> rfl
  | cons key rest ih =>
    obtain ⟨y, hy, hs⟩ := Option.bind_eq_some_iff.mp hs
    have hbelow := ih (throughout_of_get? hx hy) hs
    cases x with
    | record r =>
      have htyped := (sound_record.mp (sound_value_record.mp hx)).1
      obtain ⟨F, hF, hchild⟩ := htyped.exists_field? hy
      have happend := Record.setIn_append_of_child hF (hchild ▸ hbelow)
      rw [List.cons_append, setIn_record, happend, bind_map]
      rfl
    | map entries =>
      have hchild : (Entries.get? entries key).getD .undefined = y :=
        congrArg (·.getD .undefined) hy
      rw [List.cons_append, setIn, hchild, hbelow whole whole', bind_map]
      simp only [setIn, hchild]
    | _ => cases hy

theorem Record.setIn_append {r s : Record} {p q : List String} (hr : (record r).Sound known)
    (hs : r.getIn? p = some (.record s)) (hq : q ≠ []) (v : Value) :
    r.setIn (p ++ q) v = s.setIn q v >>= fun s' ↦ r.setIn p (.record s') := by
  cases p with
  | nil => cases hs
  | cons key rest =>
    obtain ⟨y, hy, hs⟩ := Option.bind_eq_some_iff.mp hs
    obtain ⟨F, hF, rfl⟩ := (sound_record.mp hr).1.exists_field? hy
    exact setIn_append_of_child hF
      (Value.setIn_append (throughout_of_get? (sound_value_record.mpr hr) hy) hs hq · · v)

namespace Session

variable {next : Nat}

theorem numbered_script (steps : List Step) :
    (script steps).Everywhere (Numbered (script steps).supply) := by
  obtain ⟨σ, hσ, hs⟩ := exists_stored_script steps
  exact hs.imp fun _ hp ↦ hp.numbered hσ

/-- **A path can be split where it passes a record.** Let a path lead from a reachable record to a
record `s`. If a nested write into `s` fails, the write along both paths fails with the same error.
Otherwise it is the write along the first path of what became of `s`: the two have the same error or
the same result. It makes no difference if what became of `s` is numbered before, as a session does
it: the error is still the same, and the results have the same type and draft flag and the same
keys and values, with new records in them compared by their contents. -/
theorem setIn_append_of_getIn? {r s : Record} (hr : Reachable (.record r)) {p q : List String}
    (hs : r.getIn? p = some (.record s)) (hq : q ≠ []) (v : Value) :
    (∀ e, s.setIn q v = .error e → r.setIn (p ++ q) v = .error e) ∧
      ∀ s', s.setIn q v = .ok s' →
        r.setIn (p ++ q) v = r.setIn p (.record s') ∧
          ∀ next m, (Part.record r).Throughout (Numbered next) → next ≤ m →
            (∀ e, r.setIn (p ++ q) v = .error e ↔
              r.setIn p (.record (s'.settle m).1) = .error e) ∧
            ∀ r₁ r₂, r.setIn (p ++ q) v = .ok r₁ →
              r.setIn p (.record (s'.settle m).1) = .ok r₂ →
                r₁.type = r₂.type ∧ r₁.draft = r₂.draft ∧ r₁.contents = r₂.contents ∧
                  r₁.unnumbered next = r₂.unnumbered next := by
  obtain ⟨_, known, -, hsound⟩ := exists_sound_of_reachable hr
  have happend := Record.setIn_append hsound hs hq v
  refine ⟨?_, ?_⟩
  · intro e he
    rw [happend, he]
    rfl
  · intro s' hs'
    have heq : r.setIn (p ++ q) v = r.setIn p (.record s') := by
      rw [happend, hs']
      rfl
    refine ⟨heq, ?_⟩
    intro next m hnumbered hle
    have hsettle := Record.setIn_settle hnumbered p (.record s') hle
    rw [← heq, Value.settle_record] at hsettle
    constructor
    · intro e
      rw [← map_eq_error_iff, ← hsettle, map_eq_error_iff]
    · intro r₁ r₂ h₁ h₂
      have hsame : r₁.unnumbered next = r₂.unnumbered next := by
        rw [h₁, h₂] at hsettle
        exact (Except.ok.inj hsettle).symm
      refine ⟨?_, ?_, ?_, hsame⟩
      · simpa using congrArg Record.type hsame
      · simpa using congrArg Record.draft hsame
      · simpa using congrArg Record.contents hsame

/-- Filling the circle of the drawing is filling the circle and putting it back, numbered or not. -/
theorem setIn_append_drawing :
    ∃ circle' r₁ r₂, circle.setIn ["filled"] (.bool true) = .ok circle' ∧
      drawing.setIn ["shape", "filled"] (.bool true) = .ok r₁ ∧
        drawing.setIn ["shape"] (.record (circle'.settle 4).1) = .ok r₂ ∧
          r₁.contents = r₂.contents := by
  have hdrawing := reachable_of_record record_drawing
  have hcircle : drawing.getIn? ["shape"] = some (.record circle) := rfl
  obtain ⟨-, hok⟩ :=
    setIn_append_of_getIn? hdrawing hcircle (List.cons_ne_nil "filled" []) (.bool true)
  have hnumbered : (Part.record drawing).Throughout (Numbered 4) :=
    (numbered_script drawingSteps).of_record record_drawing
  obtain ⟨-, hsettled⟩ := hok _ rfl
  obtain ⟨-, hsame⟩ := hsettled 4 4 hnumbered (Nat.le_refl 4)
  exact ⟨_, _, _, rfl, rfl, rfl, (hsame _ _ rfl rfl).2.2.1⟩

end Session

end Schemata
