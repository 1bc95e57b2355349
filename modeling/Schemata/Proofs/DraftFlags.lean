import Schemata.Proofs.DraftBlind
import Schemata.Proofs.Identity

/-!
# The draft flag does not interfere

A session takes draft flags from place to place: a draft can be bound, stored in a field, made the
default of an optional or a member of an enumeration, and be read, compared and written out there.
Only the two commands that write in place ask for the flag. Two sessions that differ in draft flags
alone answer every other command alike: both fail with the same error, or both succeed with results
that again differ in draft flags alone, and so do the sessions after it.

To compare two sessions it is enough to compare each with itself out of draft, which takes the same
steps (`Session.run_undrafted`). The one difference is that there are no drafts to take there: a
command that takes a draft becomes one that takes the record out of draft.
-/

namespace Schemata

/-! ## Terms -/

namespace Json

mutual

/-- There are no records in the value of a JSON value. -/
theorem undrafted_toValue : ∀ j : Json, j.toValue.undrafted = j.toValue
  | .null | .bool _ | .number _ | .string _ => rfl
  | .array items => congrArg Value.list (undrafted_itemsToValues items)
  | .object entries => by
    rw [toValue, Value.undrafted, undraftedEntries_eq_map, Entries.map_ofList,
      ← undraftedEntries_eq_map, undrafted_entriesToValues entries]
termination_by structural j => j

theorem undrafted_itemsToValues :
    ∀ items : List Json, undraftedItems (itemsToValues items) = itemsToValues items
  | [] => rfl
  | j :: rest => congrArg₂ List.cons (undrafted_toValue j) (undrafted_itemsToValues rest)
termination_by structural items => items

theorem undrafted_entriesToValues :
    ∀ entries : List (String × Json),
      undraftedEntries (entriesToValues entries) = entriesToValues entries
  | [] => rfl
  | (key, j) :: rest =>
    congrArg₂ (fun v es ↦ (key, v) :: es) (undrafted_toValue j) (undrafted_entriesToValues rest)
termination_by structural entries => entries

end

end Json

/-- What a command gives, out of draft. -/
def Outcome.undrafted : Outcome → Outcome
  | recordType T => recordType T.undrafted
  | fieldType F => fieldType F.undrafted
  | value v => value v.undrafted
  | nothing => nothing

/-- The command for which the difference between a record and a draft of it is gone: there is no
draft to take. -/
def Command.undrafted : Command → Command
  | toDraft record => commit record
  | c => c

/-- The step with its command out of draft. -/
def Step.undrafted (step : Step) : Step := { step with command := step.command.undrafted }

namespace Session

/-- The session with everything that is bound in it out of draft. -/
def undrafted (s : Session) : Session where
  types := s.types.map fun e ↦ (e.1, e.2.undrafted)
  fieldTypes := s.fieldTypes.map fun e ↦ (e.1, e.2.undrafted)
  values := s.values.map fun e ↦ (e.1, e.2.undrafted)
  supply := s.supply

/-- A session and what a command gave, out of draft. -/
def undraftedResult : Session × Outcome → Session × Outcome :=
  Prod.map undrafted Outcome.undrafted

variable (s : Session)

theorem find_map {α β : Type} (f : α → β) (table : Entries α) (name : String) :
    find (table.map fun e ↦ (e.1, f e.2)) name = (find table name).map f := by
  rw [find, find, Entries.get?_map]
  cases Entries.get? table name <;> rfl

theorem type_undrafted (name : String) :
    s.undrafted.type name = (s.type name).map .undrafted := find_map _ _ _

theorem fieldType_undrafted (name : String) :
    s.undrafted.fieldType name = (s.fieldType name).map .undrafted := find_map _ _ _

theorem value_undrafted (name : String) :
    s.undrafted.value name = (s.value name).map .undrafted := find_map _ _ _

theorem record_undrafted (name : String) :
    s.undrafted.record name = (s.record name).map .undrafted := by
  rw [record, record, value_undrafted]
  cases s.value name with
  | error e => rfl
  | ok v => cases v <;> rfl

mutual

theorem eval_undrafted : ∀ t : Term, s.undrafted.eval t = (s.eval t).map .undrafted
  | .undefined | .null | .bool _ | .num _ | .str _ => rfl
  | .list items => by
    rw [eval, eval, evalItems_undrafted items, map_map, map_map]
    rfl
  | .map entries => by
    rw [eval, eval, evalEntries_undrafted entries, map_map, map_map]
    simp only [Value.undrafted, undraftedEntries_eq_map, Entries.map_ofList]
  | .name name => s.value_undrafted name
termination_by structural t => t

theorem evalItems_undrafted :
    ∀ ts : List Term, s.undrafted.evalItems ts = (s.evalItems ts).map undraftedItems
  | [] => rfl
  | t :: rest => by
    rw [evalItems, evalItems, eval_undrafted t, evalItems_undrafted rest]
    cases s.eval t with
    | error e => rfl
    | ok v => cases s.evalItems rest <;> rfl
termination_by structural ts => ts

theorem evalEntries_undrafted :
    ∀ ts : List (String × Term),
      s.undrafted.evalEntries ts = (s.evalEntries ts).map undraftedEntries
  | [] => rfl
  | (key, t) :: rest => by
    rw [evalEntries, evalEntries, eval_undrafted t, evalEntries_undrafted rest]
    cases s.eval t with
    | error e => rfl
    | ok v => cases s.evalEntries rest <;> rfl
termination_by structural ts => ts

end

theorem evalSpec_undrafted (t : SpecTerm) :
    s.undrafted.evalSpec t = (s.evalSpec t).map .undrafted := by
  cases t with
  | any | bool | num | str => rfl
  | literal t =>
    rw [evalSpec, evalSpec, eval_undrafted, map_map, map_map]
    rfl
  | recordType name =>
    rw [evalSpec, evalSpec, type_undrafted, map_map, map_map]
    rfl
  | fieldType name =>
    rw [evalSpec, evalSpec, fieldType_undrafted, map_map, map_map]
    rfl

theorem evalSpecs_undrafted (ts : List (String × SpecTerm)) :
    s.undrafted.evalSpecs ts = (s.evalSpecs ts).map fun es ↦
      es.map fun e ↦ (e.1, e.2.undrafted) := by
  induction ts with
  | nil => rfl
  | cons e rest ih =>
    obtain ⟨key, t⟩ := e
    rw [evalSpecs, evalSpecs, evalSpec_undrafted, ih]
    cases s.evalSpec t with
    | error e => rfl
    | ok spec => cases s.evalSpecs rest <;> rfl

theorem evalFields_undrafted (ts : List (String × SpecTerm)) :
    s.undrafted.evalFields ts = (s.evalFields ts).map fun es ↦
      es.map fun e ↦ (e.1, e.2.undrafted) := by
  rw [evalFields, evalFields, evalSpecs_undrafted, map_map, map_map]
  simp only [Entries.map_ofList]

theorem evalType?_undrafted (t : SpecTerm) :
    s.undrafted.evalType? t = (s.evalType? t).map (Option.map .undrafted) := by
  rw [evalType?, evalType?, evalSpec_undrafted, map_map, map_map]
  simp only [FieldSpec.resolve_undrafted]

theorem evalFallback_undrafted (t : Option SpecTerm) :
    t.mapM s.undrafted.evalSpec = (t.mapM s.evalSpec).map (Option.map .undrafted) := by
  cases t with
  | none => rfl
  | some t =>
    rw [Option.mapM_some, Option.mapM_some, evalSpec_undrafted]
    cases s.evalSpec t <;> rfl

/-! ## Results -/

theorem receiveType_undrafted (T : RecordType) :
    s.undrafted.receiveType T.undrafted = undraftedResult (s.receiveType T) := rfl

theorem receiveFieldType_undrafted (F : FieldType) :
    s.undrafted.receiveFieldType F.undrafted = undraftedResult (s.receiveFieldType F) := by
  rw [receiveFieldType, receiveFieldType, F.settle_undrafted]
  rfl

theorem receive_undrafted (v : Value) :
    s.undrafted.receive v.undrafted = undraftedResult (s.receive v) := by
  rw [receive, receive, v.settle_undrafted]
  rfl

theorem receive_record_undrafted (r : Record) :
    s.undrafted.receive (.record r.undrafted) = undraftedResult (s.receive (.record r)) :=
  s.receive_undrafted (.record r)

theorem receive?_undrafted (v : Option Value) :
    s.undrafted.receive? (v.map .undrafted) = undraftedResult (s.receive? v) := by
  cases v with
  | none => rfl
  | some v => exact s.receive_undrafted v

theorem keep_undrafted (name : String) (out : Outcome) :
    s.undrafted.keep name out.undrafted = (s.keep name out).undrafted := by
  cases out with
  | nothing => rfl
  | _ => simp only [keep, undrafted, Outcome.undrafted, Entries.map_put]

/-- Out of draft, a draft of a record is the record taken out of draft, and so is the record. -/
theorem receive_toDraft_undrafted (r : Record) :
    s.undrafted.receive (.record r.undrafted.commit) =
      undraftedResult (s.receive (.record r.toDraft)) := by
  obtain ⟨T, i, fields, draft⟩ := r
  exact s.receive_undrafted (.record ⟨T, i, fields, true⟩)

theorem receive_commit_undrafted (r : Record) :
    s.undrafted.receive (.record r.undrafted.commit) =
      undraftedResult (s.receive (.record r.commit)) := by
  obtain ⟨T, i, fields, draft⟩ := r
  exact s.receive_undrafted (.record ⟨T, i, fields, false⟩)

/-! ## Steps -/

/-- **A command does not look at drafts**, unless it writes in place. -/
theorem perform_undrafted (s : Session) {c : Command} (h : c.target? = none) :
    s.undrafted.perform c.undrafted = (s.perform c).map undraftedResult := by
  have hsupply : s.undrafted.supply = s.supply := rfl
  rw [perform, perform]
  cases c with
  | write | assign => cases h
  | declare | extend | extendSpec | relabel | derive =>
    simp only [Command.undrafted, attempt, result_taking, type_undrafted, evalSpec_undrafted,
      evalFields_undrafted, resolveFields_undrafted, hsupply, RecordType.declare_undrafted,
      RecordType.extend_undrafted, RecordType.extendSpec_undrafted, RecordType.relabelled_undrafted,
      RecordType.derived_undrafted, map_bind, bind_map, ← map_mapError, receiveType_undrafted]
    rfl
  | optionalOf | enumOf | enumOfList | unionOf =>
    simp only [Command.undrafted, attempt, result_taking, eval_undrafted, evalItems_undrafted,
      evalSpec_undrafted, evalSpecs_undrafted, evalFallback_undrafted,
      FieldType.optionalOf_undrafted, FieldType.enumOf_undrafted, FieldType.enumOfList_undrafted,
      FieldType.unionOf_undrafted, map_bind, bind_map, ← map_mapError, receiveFieldType_undrafted]
    rfl
  | resolve spec =>
    simp only [Command.undrafted, attempt, result_taking, evalType?_undrafted, map_bind, bind_map]
    refine congrArg (s.evalType? spec >>= ·) (funext fun F ↦ ?_)
    cases F with
    | none => rfl
    | some F => exact congrArg Except.ok (s.receiveFieldType_undrafted F)
  | read spec value =>
    simp only [Command.undrafted, attempt, result_taking, eval_undrafted, evalType?_undrafted,
      map_bind, bind_map]
    refine congrArg (s.eval value >>= ·) (funext fun v ↦ ?_)
    refine congrArg (s.evalType? spec >>= ·) (funext fun F ↦ ?_)
    cases F with
    | none => rfl
    | some F =>
      simp only [Option.map_some, F.readsAlike v, map_bind, bind_map, ← map_mapError,
        receive_undrafted]
      rfl
  | construct | set | reset | setIn =>
    simp only [Command.undrafted, attempt, result_taking, type_undrafted, record_undrafted,
      eval_undrafted, RecordType.construct_undrafted, Record.set_undrafted, Record.reset_undrafted,
      Record.setIn_undrafted, map_bind, bind_map, ← map_mapError, receive_record_undrafted]
    rfl
  | toDraft record =>
    simp only [Command.undrafted, attempt, result_taking, record_undrafted, map_bind, bind_map,
      receive_toDraft_undrafted]
    rfl
  | commit record =>
    simp only [Command.undrafted, attempt, result_taking, record_undrafted, map_bind, bind_map,
      receive_commit_undrafted]
    rfl
  | get | getIn | property =>
    simp only [Command.undrafted, attempt, result_taking, record_undrafted, Record.get?_undrafted,
      Record.getIn?_undrafted, Record.property?_undrafted, map_bind, bind_map, receive?_undrafted]
    rfl
  | value t =>
    simp only [Command.undrafted, attempt, result_taking, eval_undrafted, map_bind, bind_map,
      receive_undrafted]
    rfl
  | json j =>
    have hreceive := s.receive_undrafted j.toValue
    rw [j.undrafted_toValue] at hreceive
    exact congrArg Except.ok hreceive
  | integer i => exact congrArg Except.ok (s.receive_undrafted (.num (.ofInt i)))

theorem run_undrafted (s : Session) {step : Step} (h : step.command.target? = none) :
    s.undrafted.run step.undrafted = (s.run step).map undraftedResult := by
  obtain ⟨c, binding⟩ := step
  rw [run_eq, run_eq, Step.undrafted, s.perform_undrafted h]
  cases s.perform c with
  | error e => rfl
  | ok out =>
    cases binding with
    | none => rfl
    | some name =>
      have hkeep := out.1.keep_undrafted name out.2
      exact congrArg (fun s ↦ Except.ok (s, out.2.undrafted)) hkeep

theorem after_undrafted (s : Session) {step : Step} (h : step.command.target? = none) :
    s.undrafted.after step.undrafted = (s.after step).undrafted := by
  rw [after_eq, after_eq, s.run_undrafted h]
  cases s.run step <;> rfl

/-- **Steps do not look at drafts.** -/
theorem undrafted_foldl_after {steps : List Step} (h : ∀ step ∈ steps, step.command.target? = none)
    {s s' : Session} (hs : s.undrafted = s'.undrafted) :
    (steps.foldl after s).undrafted = (steps.foldl after s').undrafted := by
  induction steps generalizing s s' with
  | nil => exact hs
  | cons step rest ih =>
    obtain ⟨hstep, hrest⟩ := List.forall_mem_cons.mp h
    refine ih hrest ?_
    rw [← s.after_undrafted hstep, hs, s'.after_undrafted hstep]

end Session

/-! ## Draft flags of results -/

theorem Record.draft_of_setIn {r r' : Record} {path : List String} {v : Value}
    (h : r.setIn path v = .ok r') : r'.draft = r.draft :=
  have ⟨_, _, hset⟩ := exists_set_of_setIn h
  draft_of_set hset

theorem RecordType.draft_of_construct {T : RecordType} {v : Value} {r : Record}
    (h : T.construct v = .ok r) : r.draft = false := by
  obtain ⟨fields, -, rfl⟩ := build_eq_ok_iff.mp (construct_eq_ok_iff.mp h).2
  rfl

/-! ## Drafts do not interfere -/

/-- **The draft flag does not interfere.** Two things differ in draft flags alone if they are equal
out of draft.

* Let two sessions differ in draft flags alone. After any steps that do not write in place, a step
  that does not write in place fails in both with the same error or succeeds in both, with results
  and sessions that differ in draft flags alone.
* What is computed from values, records and types is the same if they differ in draft flags alone:
  equality and sameness, JSON forms and texts, which keys there are, membership in a list, identity
  of records, being an instance, and the names of types.
* A write to a copy keeps the draft flag of the record that is written, and what is built from a
  value is never a draft. -/
theorem drafts_do_not_interfere :
    (∀ (s s' : Session) (steps : List Step) (step : Step), s.undrafted = s'.undrafted →
      (∀ t ∈ steps, t.command.target? = none) → step.command.target? = none →
        ((steps.foldl Session.after s).run step).map Session.undraftedResult =
          ((steps.foldl Session.after s').run step).map Session.undraftedResult) ∧
    (∀ v v' w w' : Value, v.undrafted = v'.undrafted → w.undrafted = w'.undrafted →
      v.equal w = v'.equal w' ∧ v.same w = v'.same w' ∧ v.toJson = v'.toJson ∧
        v.display = v'.display ∧ ∀ key, v.hasKey key = v'.hasKey key) ∧
    (∀ (v v' : Value) (members members' : List Value), v.undrafted = v'.undrafted →
      members.map Value.undrafted = members'.map Value.undrafted →
        v.isAmong members = v'.isAmong members') ∧
    (∀ (q q' r r' : Record) (T T' : RecordType), q.undrafted = q'.undrafted →
      r.undrafted = r'.undrafted → T.undrafted = T'.undrafted →
        q.identical r = q'.identical r' ∧ r.isInstanceOf T = r'.isInstanceOf T' ∧
          T.name = T'.name) ∧
    (∀ F F' : FieldType, F.undrafted = F'.undrafted → F.name = F'.name) ∧
    (∀ (r r' : Record) (key : String) (path : List String) (v : Value),
      r.set key v = .ok r' ∨ r.reset key = .ok r' ∨ r.setIn path v = .ok r' →
        r'.draft = r.draft) ∧
    ∀ (T : RecordType) (v : Value) (r : Record), T.construct v = .ok r → r.draft = false := by
  refine ⟨?_, ?_, ?_, ?_, ?_, ?_, fun T v r ↦ RecordType.draft_of_construct⟩
  · intro s s' steps step hs hsteps hstep
    rw [← Session.run_undrafted _ hstep, ← Session.run_undrafted _ hstep,
      Session.undrafted_foldl_after hsteps hs]
  · intro v v' w w' hv hw
    refine ⟨?_, ?_, ?_, ?_, fun key ↦ ?_⟩
    · rw [← v.equal_undrafted, ← v'.equal_undrafted, hv, hw]
    · rw [← v.same_undrafted, ← v'.same_undrafted, hv, hw]
    · rw [← v.toJson_undrafted, ← v'.toJson_undrafted, hv]
    · rw [← v.display_undrafted, ← v'.display_undrafted, hv]
    · rw [← v.hasKey_undrafted, ← v'.hasKey_undrafted, hv]
  · intro v v' members members' hv hmembers
    rw [← v.isAmong_undrafted, ← v'.isAmong_undrafted, undraftedItems_eq_map,
      undraftedItems_eq_map, hv, hmembers]
  · intro q q' r r' T T' hq hr hT
    refine ⟨?_, ?_, ?_⟩
    · rw [← q.identical_undrafted, ← q'.identical_undrafted, hq, hr]
    · rw [← r.isInstanceOf_undrafted, ← r'.isInstanceOf_undrafted, hr, hT]
    · rw [← T.name_undrafted, ← T'.name_undrafted, hT]
  · intro F F' hF
    rw [← F.name_undrafted, ← F'.name_undrafted, hF]
  · rintro r r' key path v (h | h | h)
    · exact Record.draft_of_set h
    · exact Record.draft_of_set h
    · exact Record.draft_of_setIn h

/-! ## A box and a draft of it -/

namespace Session

/-- The steps that make the boxes, but without a draft. -/
def committedBoxSteps : List Step := boxSteps.take 3 ++ [⟨.commit "box", some "draft"⟩]

/-- With a box that is not a draft in the place of the draft, the other box takes it, finds it and
compares it in the same way. -/
theorem drafts_do_not_interfere_box :
    ((script boxSteps).run ⟨.set "outer" "item" (.name "draft"), none⟩).map undraftedResult =
        ((script committedBoxSteps).run ⟨.set "outer" "item" (.name "draft"), none⟩).map
          undraftedResult ∧
      ((Value.record box.toDraft).equal (.record box) = (Value.record box).equal (.record box) ∧
        (Value.record box.toDraft).display = (Value.record box).display) ∧
      (Value.record box.toDraft).isAmong [.record box] =
        (Value.record box).isAmong [.record box.toDraft] ∧
      box.toDraft.identical box = box.identical box ∧
      (FieldType.enum [.record box.toDraft] .undefined).name =
        (FieldType.enum [.record box] .undefined).name ∧
      (∃ r, box.toDraft.set "item" (.str "pen") = .ok r ∧ r.draft = true) ∧
      ∃ r, boxType.construct (.record box.toDraft) = .ok r ∧ r.draft = false := by
  obtain ⟨hrun, hvalues, hmembers, hrecords, hnames, hwrite, hbuild⟩ := drafts_do_not_interfere
  obtain ⟨hequal, -, -, hdisplay, -⟩ := hvalues (.record box.toDraft) (.record box) (.record box)
    (.record box) rfl rfl
  refine ⟨?_, ⟨hequal, hdisplay⟩, ?_, ?_, ?_, ⟨_, rfl, ?_⟩, _, rfl, ?_⟩
  · exact hrun _ _ [] _ rfl (List.forall_mem_nil _) rfl
  · exact hmembers _ _ _ _ rfl rfl
  · exact (hrecords _ _ _ _ boxType boxType rfl rfl rfl).1
  · exact hnames _ _ rfl
  · exact hwrite box.toDraft _ "item" [] (.str "pen") (Or.inl rfl)
  · exact hbuild boxType (.record box.toDraft) _ rfl

end Session

end Schemata
