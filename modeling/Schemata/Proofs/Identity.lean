import Schemata.Proofs.Sharing
import Schemata.Proofs.Storing

/-!
# Identity of records

Records that a session holds share storage all the time: a draft shares it with the record it was
taken of, a field with the variable that was stored in it, a default with every record that took it.
So what a write does to one of them must not show in another. It does not, because a write never
changes a storage: it makes a record with a new one, and in place of the old record it puts this one
into a single variable. And if the write fails, the variable gets back what it had.

`Session.copy_on_write` says so for every script and every step after it. It also says which
commands keep the identity of a record: those that hand over what a session holds, and those that
store a value in which a record lies, wherever the fields on the way let the record through
(`FieldType.KeepsAt`, `Value.SetsAt`).
-/

namespace Schemata

open Schemata.Part

/-! ## Bindings that a step leaves alone -/

/-- The name whose record the command replaces in place. -/
def Command.target? : Command → Option String
  | .write name _ _ | .assign name _ _ => some name
  | _ => none

/-- Whether the command builds a record or writes to one. -/
def Command.makesRecord : Command → Bool
  | .construct .. | .set .. | .reset .. | .setIn .. | .write .. | .assign .. => true
  | _ => false

namespace Session

variable {s s' : Session} {c : Command} {step : Step} {out : Outcome}

/-- Every name keeps what it is bound to, except the name that the step binds its result to and, for
a value, the name that the step writes in place. -/
def KeptBy (s : Session) (step : Step) (s' : Session) : Prop :=
  ∀ name, step.binding ≠ some name →
    s'.type name = s.type name ∧ s'.fieldType name = s.fieldType name ∧
      (step.command.target? ≠ some name → s'.value name = s.value name)

theorem find_put_of_ne {α : Type} {table : Entries α} {name other : String} (h : name ≠ other)
    (x : α) : find (Entries.put table name x) other = find table other := by
  rw [find, find, Entries.get?_put, if_neg h]

theorem find_put_self {α : Type} (table : Entries α) (name : String) (x : α) :
    find (Entries.put table name x) name = .ok x := by
  rw [find, Entries.get?_put_self]

theorem target?_of_rewrites {name : String} {r : Record} (h : s.Rewrites c name r) :
    c.target? = some name := by
  cases h <;> rfl

private theorem bindings_of_performs {out : Session × Outcome} (h : s.Performs c out)
    (name : String) :
    out.1.type name = s.type name ∧ out.1.fieldType name = s.fieldType name ∧
      (c.target? ≠ some name → out.1.value name = s.value name) := by
  cases h with
  | declares | describes | yields | nothing => exact ⟨rfl, rfl, fun _ ↦ rfl⟩
  | rewrites h =>
    refine ⟨rfl, rfl, fun hne ↦ find_put_of_ne ?_ _⟩
    rintro rfl
    exact hne (target?_of_rewrites h)

private theorem bindings_keep {name other : String} (h : name ≠ other) (s : Session)
    (out : Outcome) :
    (s.keep name out).type other = s.type other ∧
      (s.keep name out).fieldType other = s.fieldType other ∧
        (s.keep name out).value other = s.value other := by
  cases out with
  | recordType T => exact ⟨find_put_of_ne h T, rfl, rfl⟩
  | fieldType F => exact ⟨rfl, find_put_of_ne h F, rfl⟩
  | value v => exact ⟨rfl, rfl, find_put_of_ne h v⟩
  | nothing => exact ⟨rfl, rfl, rfl⟩

theorem keptBy_of_run (h : s.run step = .ok (s', out)) : s.KeptBy step s' := by
  intro name hname
  obtain ⟨s₁, hperform, hbinding⟩ := perform_of_run h
  have hperforms := bindings_of_performs (performs_of_perform hperform) name
  rcases hbinding with ⟨-, rfl⟩ | ⟨bound, hbound, rfl⟩
  · exact hperforms
  · obtain ⟨htype, hfieldType, hvalue⟩ := hperforms
    have hne : bound ≠ name := by
      rintro rfl
      exact hname hbound
    obtain ⟨htype', hfieldType', hvalue'⟩ := bindings_keep hne s₁ out
    exact ⟨htype'.trans htype, hfieldType'.trans hfieldType,
      fun htarget ↦ hvalue'.trans (hvalue htarget)⟩

/-! ## Records that are made -/

/-- The session holds the record: it occurs in what a name is bound to. -/
def Holds (s : Session) (r : Record) : Prop := ∃ p ∈ s.parts, (Part.record r).Within p

/-- The record has a storage, and neither a record that the session holds nor one inside the record
itself has the same. -/
def IsNew (s : Session) (r : Record) : Prop :=
  r.identical r = true ∧ (∀ q, s.Holds q → q.identical r = false) ∧
    ∀ p ∈ (Part.record r).direct, ∀ q, (Part.record q).Within p → q.identical r = false

/-- The command writes a value along a path in a record of the session, in place or in a copy. -/
inductive Edits (s : Session) : Command → Record → List String → Value → Prop where
  | set {n key t r v} : s.record n = .ok r → s.eval t = .ok v → Edits s (.set n key t) r [key] v
  | reset {n key r} : s.record n = .ok r → Edits s (.reset n key) r [key] .undefined
  | setIn {n path t r v} : s.record n = .ok r → s.eval t = .ok v →
    Edits s (.setIn n path t) r path v
  | write {n key t r v} : s.record n = .ok r → s.eval t = .ok v →
    Edits s (.write n key t) r [key] v
  | assign {n name t r v p} : s.record n = .ok r → s.eval t = .ok v →
    r.type.property? name = some p → Edits s (.assign n name t) r [p.key] v

/-- What the record that a command makes has from what it is made of. One that is built has the type
asked for and is no draft. One that is written has the type and the draft flag of the record before
and, but for the field at which the path starts, the very same values. -/
inductive Derives (s : Session) : Command → Record → Prop where
  | built {n t r} : s.type n = .ok r.type → r.draft = false → Derives s (.construct n t) r
  | edited {c r₀ key rest v r} : s.Edits c r₀ (key :: rest) v → r.type = r₀.type →
    r.draft = r₀.draft → (∀ other, other ≠ key → r.get? other = r₀.get? other) → Derives s c r

/-- The record that a command makes, before the session numbers it. -/
inductive Makes (s : Session) : Command → Record → Prop where
  | construct {n t T v r} : s.type n = .ok T → s.eval t = .ok v → T.construct v = .ok r →
    Makes s (.construct n t) r
  | edit {c r₀ path v r} : s.Edits c r₀ path v → r₀.setIn path v = .ok r → Makes s c r

variable {σ : Store} {r : Record}

/-! ### What is made -/

/-- What a command that builds or writes gives: the record that it makes, settled. If the command
writes in place, this is what the name is bound to afterwards. -/
theorem exists_makes_of_performs {out : Session × Outcome} (hc : c.makesRecord = true)
    (h : s.Performs c out) :
    ∃ r, s.Makes c r ∧ out.2 = .value (.record (r.settle s.supply).1) ∧
      ∀ name, c.target? = some name →
        out.1.value name = .ok (.record (r.settle s.supply).1) := by
  cases h with
  | declares h | describes h | nothing h => cases h <;> cases hc
  | yields h =>
    cases h with
    | construct hT hv hr => exact ⟨_, .construct hT hv hr, rfl, fun _ h ↦ nomatch h⟩
    | set hr hv hset =>
      rw [← Record.setIn_singleton] at hset
      exact ⟨_, .edit (.set hr hv) hset, rfl, fun _ h ↦ nomatch h⟩
    | reset hr hset =>
      rw [Record.reset, ← Record.setIn_singleton] at hset
      exact ⟨_, .edit (.reset hr) hset, rfl, fun _ h ↦ nomatch h⟩
    | setIn hr hv hset => exact ⟨_, .edit (.setIn hr hv) hset, rfl, fun _ h ↦ nomatch h⟩
    | _ => cases hc
  | @rewrites target r h =>
    have hvalue : ∀ name, c.target? = some name →
        (s.replace target r).1.value name = .ok (.record (r.settle s.supply).1) := by
      intro name hname
      obtain rfl : target = name := Option.some.inj ((target?_of_rewrites h).symm.trans hname)
      exact find_put_self _ _ _
    refine ⟨r, ?_, rfl, hvalue⟩
    cases h with
    | write hr hv h =>
      have hset := Record.set_of_write h
      rw [← Record.setIn_singleton] at hset
      exact .edit (.write hr hv) hset
    | assign hr hv h =>
      obtain ⟨p, hp, hset⟩ := Record.set_of_assign h
      rw [← Record.setIn_singleton] at hset
      exact .edit (.assign hr hv hp) hset

theorem storage_of_set {r r' : Record} {key : String} {v : Value} (h : r.set key v = .ok r') :
    r'.storage = none := by
  obtain ⟨F, x, -, -, rfl⟩ := Record.set_eq_ok_iff.mp h
  rfl

/-- What is made has no number yet. -/
theorem Makes.storage_eq_none (h : s.Makes c r) : r.storage = none := by
  cases h with
  | construct _ _ hr =>
    obtain ⟨-, hr⟩ := RecordType.construct_eq_ok_iff.mp hr
    obtain ⟨fields, -, rfl⟩ := RecordType.build_eq_ok_iff.mp hr
    rfl
  | edit _ hset =>
    obtain ⟨_, _, hset⟩ := Record.exists_set_of_setIn hset
    exact storage_of_set hset

/-- The records inside what is made are stored or fresh. -/
theorem Makes.storedOrFresh (hs : s.Everywhere (Stored σ)) (h : s.Makes c r) :
    (Part.record r).Throughout (StoredOrFresh σ) := by
  have hs : s.Everywhere (StoredOrFresh σ) := hs.imp fun _ hp ↦ hp.storedOrFresh
  cases h with
  | construct hT hv hr => exact throughout_of_construct (hs.of_type hT) (hs.of_eval _ hv) hr
  | edit hedits hset =>
    cases hedits with
    | reset hr => exact throughout_of_setIn (hs.of_record hr) throughout_undefined hset
    | set hr hv | setIn hr hv | write hr hv | assign hr hv _ =>
      exact throughout_of_setIn (hs.of_record hr) (hs.of_eval _ hv) hset

/-! ### New storage -/

theorem stored_of_holds (hs : s.Everywhere (Stored σ)) (h : s.Holds r) : Stored σ (.record r) := by
  obtain ⟨p, hp, hr⟩ := h
  exact hs.of_mem_parts hp _ hr

private theorem not_identical_of_stored {q r : Record} {next : Nat} (hq : Stored σ (.record q))
    (hσ : σ next = none) (hr : r.storage = some next) : q.identical r = false := by
  obtain ⟨i, hi, hstored⟩ := hq
  have hne : i ≠ next := by
    rintro rfl
    rw [hσ] at hstored
    cases hstored
  simp [Record.identical, hi, hr, hne]

/-- A fresh record is new to the session once it is settled. -/
theorem isNew_settle (hσ : σ.Below s.supply) (hs : s.Everywhere (Stored σ))
    (hfresh : r.storage = none) (hr : (Part.record r).Throughout (StoredOrFresh σ)) :
    s.IsNew (r.settle s.supply).1 := by
  have hstorage : (r.settle s.supply).1.storage = some s.supply := by
    rw [Record.settle_of_fresh hfresh]
  obtain ⟨τ, hτ, hinside⟩ := Record.exists_store_of_settle hσ hfresh hr
  refine ⟨?_, ?_, ?_⟩
  · simp [Record.identical, RecordType.identical, hstorage]
  · intro q hq
    exact not_identical_of_stored (stored_of_holds hs hq) (hσ _ (Nat.le_refl _)) hstorage
  · intro p hp q hq
    exact not_identical_of_stored (hinside p hp _ hq) hτ hstorage

/-! ### What stays the same -/

/-- What a settled record holds under a key is what it held before, if that was stored. -/
private theorem get?_settle_of_stored {r : Record} {key : String} {next : Nat}
    (h : ∀ v, r.get? key = some v → (Part.value v).Throughout (Stored σ)) :
    (r.settle next).1.get? key = r.get? key := by
  simp only [← Record.getIn?_singleton] at h ⊢
  exact Record.getIn?_settle_of_stored h next

theorem Edits.record_throughout (hs : s.Everywhere (Stored σ)) {path : List String} {v : Value}
    (h : s.Edits c r path v) : (Part.record r).Throughout (Stored σ) := by
  cases h with
  | reset hr | set hr _ | setIn hr _ | write hr _ | assign hr _ _ => exact hs.of_record hr

/-- The record that is made, once it is settled, has the rest from what it is made of. -/
theorem Makes.derives_settle (hs : s.Everywhere (Stored σ)) (h : s.Makes c r) (next : Nat) :
    s.Derives c (r.settle next).1 := by
  cases h with
  | @construct _ _ T v r hT _ hr =>
    obtain ⟨-, hr⟩ := RecordType.construct_eq_ok_iff.mp hr
    obtain ⟨fields, -, rfl⟩ := RecordType.build_eq_ok_iff.mp hr
    refine .built ?_ (Record.draft_settle _ _)
    rw [Record.type_settle]
    exact hT
  | @edit c r₀ path v r hedits hset =>
    cases path with
    | nil => cases hset
    | cons key rest =>
      rw [Record.setIn] at hset
      obtain ⟨-, x, -, hset⟩ := Record.update_eq_ok_iff.mp hset
      refine .edited hedits ?_ ?_ fun other hne ↦ ?_
      · rw [Record.type_settle, Record.type_of_set hset]
      · rw [Record.draft_settle, Record.draft_of_set hset]
      · have hother := Record.get?_of_set hset hne.symm
        have hstored : ∀ w, r.get? other = some w → (Part.value w).Throughout (Stored σ) := by
          intro w hw
          rw [hother] at hw
          exact throughout_of_get? (throughout_of_record (hedits.record_throughout hs)) hw
        rw [get?_settle_of_stored hstored, hother]

/-! ## Records that keep their identity -/

/-- What a command hands over as it is: the value that a term stands for, the value under a key, a
path or a property, a record in draft or out of it, and a value that is read by a field type which
takes it. -/
inductive HandsOver (s : Session) : Command → Value → Prop where
  | value {t v} : s.eval t = .ok v → HandsOver s (.value t) v
  | get {n key r v} : s.record n = .ok r → r.get? key = some v → HandsOver s (.get n key) v
  | getIn {n path r v} : s.record n = .ok r → r.getIn? path = some v →
    HandsOver s (.getIn n path) v
  | property {n key r v} : s.record n = .ok r → r.property? key = some v →
    HandsOver s (.property n key) v
  | toDraft {n r} : s.record n = .ok r → HandsOver s (.toDraft n) (.record r.toDraft)
  | commit {n r} : s.record n = .ok r → HandsOver s (.commit n) (.record r.commit)
  | read {spec t F v} : s.evalType? spec = .ok (some F) → s.eval t = .ok v → v ≠ .undefined →
    F.takes v = true → HandsOver s (.read spec t) v

/-- What a command gives has the record `q` at a place: the command reads a value or builds a record
from it, and the field types keep `q`, or it writes a value along a path, and the write lets `q`
through. -/
inductive Stores (s : Session) : Command → Place → Record → Prop where
  | read {spec t F v p q} : s.evalType? spec = .ok (some F) → s.eval t = .ok v →
    F.KeepsAt v p q → Stores s (.read spec t) p q
  | construct {n t T v key F p q} : s.type n = .ok T → s.eval t = .ok v →
    T.field? key = some F → F.KeepsAt (F.orDefault (v.getD key)) p q →
      Stores s (.construct n t) (.key key :: p) q
  | edit {c r path v p q} : s.Edits c r path v → Value.SetsAt v (.record r) path p q →
    Stores s c p q

theorem yields_of_handsOver {v : Value} (h : s.HandsOver c v) : s.Yields c v := by
  cases h with
  | value hv => exact .value hv
  | get hr hv => exact .get hr hv
  | getIn hr hv => exact .getIn hr hv
  | property hr hv => exact .property hr hv
  | toDraft hr => exact .toDraft hr
  | commit hr => exact .commit hr
  | read hF hv hne htakes => exact .read hF hv ((FieldType.read_eq_self_iff hne).mpr htakes)

theorem stored_of_handsOver (hs : s.Everywhere (Stored σ)) {v : Value} (h : s.HandsOver c v) :
    (Part.value v).Throughout (Stored σ) := by
  cases h with
  | value hv => exact hs.of_eval _ hv
  | get hr hv => exact throughout_of_get? (hs.of_value (value_of_record hr)) hv
  | getIn hr hv => exact throughout_of_record_getIn? (hs.of_record hr) hv
  | property hr hv =>
    obtain ⟨p, -, rfl⟩ := Option.map_eq_some_iff.mp hv
    exact throughout_getD (hs.of_value (value_of_record hr)) p.key
  | toDraft hr | commit hr =>
    -- The draft flag is not part of what the storage holds.
    obtain ⟨hself, hT, hfields⟩ := throughout_record.mp (hs.of_record hr)
    exact throughout_of_record (throughout_record.mpr ⟨hself, hT, hfields⟩)
  | read _ hv _ _ => exact hs.of_eval _ hv

/-- **What is handed over is the very same value.** -/
theorem exists_run_of_handsOver (hs : s.Everywhere (Stored σ)) {v : Value}
    (h : s.HandsOver step.command v) : ∃ s', s.run step = .ok (s', .value v) := by
  have hperform := perform_of_yields (yields_of_handsOver h)
  rw [receive, Value.settle_of_stored (stored_of_handsOver hs h)] at hperform
  rw [run_eq, hperform]
  cases step.binding with
  | none => exact ⟨_, rfl⟩
  | some name => exact ⟨_, rfl⟩

theorem run_eq_ok_iff : s.run step = .ok (s', out) ↔ s.exec step = (.ok out, s') := by
  rw [run]
  rcases s.exec step with ⟨e | _, _⟩ <;> simp [result, and_comm]

/-- A command writes one value, along one path, in one record. -/
theorem Edits.unique {r r' : Record} {path path' : List String} {v v' : Value}
    (h : s.Edits c r path v) (h' : s.Edits c r' path' v') : r = r' ∧ path = path' ∧ v = v' := by
  cases h with
  | reset hr =>
    cases h' with
    | reset hr' => exact ⟨Except.ok.inj (hr.symm.trans hr'), rfl, rfl⟩
  | set hr hv | setIn hr hv | write hr hv =>
    cases h'
    rename_i hr' hv'
    exact ⟨Except.ok.inj (hr.symm.trans hr'), rfl, Except.ok.inj (hv.symm.trans hv')⟩
  | assign hr hv hp =>
    cases h' with
    | assign hr' hv' hp' =>
      obtain rfl := Except.ok.inj (hr.symm.trans hr')
      obtain rfl := Option.some.inj (hp.symm.trans hp')
      exact ⟨rfl, rfl, Except.ok.inj (hv.symm.trans hv')⟩

theorem Edits.makesRecord {path : List String} {v : Value} (h : s.Edits c r path v) :
    c.makesRecord = true := by
  cases h <;> rfl

/-- **A record that a step stores is found at its place**, and is the very same record there. -/
theorem at?_of_stores (hs : s.Everywhere (Stored σ)) {s₁ : Session} {p : Place} {q : Record}
    (h : s.Stores c p q) (hq : s.Holds q) (hperform : s.perform c = .ok (s₁, out)) :
    ∃ w, out = .value w ∧ w.at? p = some (.record q) := by
  -- It is enough to find it in the value before this is settled.
  suffices hfind : ∃ (v : Value) (n : Nat), out = .value (v.settle n).1 ∧
      v.at? p = some (.record q) by
    obtain ⟨v, n, rfl, hat⟩ := hfind
    obtain ⟨i, hi, -⟩ := stored_of_holds hs hq
    exact ⟨_, rfl, Value.at?_settle (Option.isSome_of_mem hi) hat n⟩
  cases h with
  | read hF hv hkeeps =>
    simp only [perform, attempt, result_taking, hF, hv, bind_eq_ok_iff, mapError_eq_ok_iff,
      pure_eq_ok_iff, Except.ok.injEq, exists_eq_left'] at hperform
    obtain ⟨w, hw, hout⟩ := hperform
    obtain ⟨rfl, rfl⟩ := Prod.mk.inj hout
    exact ⟨w, _, rfl, hkeeps.at?_of_read hw⟩
  | construct hT hv hF hkeeps =>
    obtain ⟨r, hmakes, rfl, -⟩ := exists_makes_of_performs rfl (performs_of_perform hperform)
    refine ⟨.record r, _, rfl, ?_⟩
    cases hmakes with
    | construct hT' hv' hr =>
      obtain rfl := Except.ok.inj (hT.symm.trans hT')
      obtain rfl := Except.ok.inj (hv.symm.trans hv')
      exact hkeeps.at?_of_build (RecordType.construct_eq_ok_iff.mp hr).2 hF
    | edit hedits => cases hedits
  | edit hedits hsets =>
    obtain ⟨r, hmakes, rfl, -⟩ :=
      exists_makes_of_performs hedits.makesRecord (performs_of_perform hperform)
    refine ⟨.record r, _, rfl, ?_⟩
    cases hmakes with
    | construct => cases hedits
    | edit hedits' hset =>
      obtain ⟨rfl, rfl, rfl⟩ := hedits.unique hedits'
      exact hsets.at?_of_record_setIn hset

/-! ## Copy on write -/

/-- **Identity and copy on write**, after every script and for every step that may follow it.

* Two records that the session holds and that are one have the same type and the same fields. A
  record is one with its draft and with what the draft commits to.
* A step that fails changes nothing.
* A step that succeeds leaves every binding alone but those it is about, and so all records in them,
  aliases of the one that is written included. If it builds or writes a record, this record is new.
  If it writes, the record has all but one field, its type and its draft flag from the one that is
  written, and where this is done in place it stands there instead.
* What is taken from a name, a key, a path or a property, put into a draft or out of it, or read by
  a field type that takes it, comes out as it is held. A record that is stored, at whatever place of
  the value that is read, built from or written, is the very same record there. -/
theorem copy_on_write (steps : List Step) :
    (∀ q r, (script steps).Holds q → (script steps).Holds r → q.identical r = true →
      q.type = r.type ∧ q.fields = r.fields) ∧
    (∀ r, (script steps).Holds r →
      r.toDraft.identical r = true ∧ r.commit.identical r = true) ∧
    ∀ step : Step,
      (∀ e s', (script steps).exec step = (.error e, s') → s' = script steps) ∧
      (∀ out s', (script steps).exec step = (.ok out, s') →
        (script steps).KeptBy step s' ∧
        (step.command.makesRecord = true → ∃ r, out = .value (.record r) ∧
          (script steps).IsNew r ∧ (script steps).Derives step.command r ∧
          ∀ name, step.command.target? = some name → s'.value name = .ok (.record r)) ∧
        ∀ p q, (script steps).Stores step.command p q → (script steps).Holds q →
          ∃ v, out = .value v ∧ v.at? p = some (.record q)) ∧
      ∀ v, (script steps).HandsOver step.command v →
        ∃ s', (script steps).exec step = (.ok (.value v), s') := by
  obtain ⟨σ, hσ, hs⟩ := exists_stored_script steps
  generalize script steps = s at hσ hs ⊢
  refine ⟨?_, ?_, fun step ↦ ⟨fun e s' ↦ exec_error, ?_, ?_⟩⟩
  · exact fun q r hq hr ↦ Record.eq_of_identical (stored_of_holds hs hq) (stored_of_holds hs hr)
  · intro r hr
    obtain ⟨i, hi, -⟩ := stored_of_holds hs hr
    simp [Record.identical, RecordType.identical, Record.toDraft, Record.commit, hi]
  · intro out s' hexec
    have hrun := run_eq_ok_iff.mpr hexec
    obtain ⟨s₁, hperform, hbinding⟩ := perform_of_run hrun
    refine ⟨keptBy_of_run hrun, ?_, fun p q hstores hq ↦ at?_of_stores hs hstores hq hperform⟩
    intro hc
    obtain ⟨r, hmakes, rfl, htarget⟩ := exists_makes_of_performs hc (performs_of_perform hperform)
    refine ⟨_, rfl, isNew_settle hσ hs hmakes.storage_eq_none (hmakes.storedOrFresh hs),
      hmakes.derives_settle hs _, fun name hname ↦ ?_⟩
    rcases hbinding with ⟨-, rfl⟩ | ⟨bound, -, rfl⟩
    · exact htarget name hname
    · -- The result may be bound to the very name that is written.
      by_cases hne : bound = name
      · subst hne
        exact find_put_self _ _ _
      · exact (find_put_of_ne hne _).trans (htarget name hname)
  · intro v hv
    obtain ⟨s', hrun⟩ := exists_run_of_handsOver hs hv
    exact ⟨s', run_eq_ok_iff.mp hrun⟩

/-- A box, a second one with the first in it, and a draft of the first. -/
def boxSteps : List Step :=
  [⟨.declare [("item", .any)] (some "Box"), some "Box"⟩,
   ⟨.construct "Box" .undefined, some "box"⟩,
   ⟨.construct "Box" (.map [("item", .name "box")]), some "outer"⟩,
   ⟨.toDraft "box", some "draft"⟩]

def boxType : RecordType := ⟨0, some "Box", [("item", .any)], none, [("item", .field "item")]⟩

def box : Record := ⟨boxType, some 1, [("item", .undefined)], false⟩

/-- The boxes, and a crate for one, with none in it. -/
def crateSteps : List Step :=
  boxSteps ++
  [⟨.optionalOf (.recordType "Box") .undefined, some "content"⟩,
   ⟨.declare [("content", .fieldType "content"), ("rest", .any)] (some "Crate"), some "Crate"⟩,
   ⟨.construct "Crate" .undefined, some "crate"⟩]

theorem holds_of_value {name : String} {r : Record} (h : s.value name = .ok (.record r)) :
    s.Holds r := by
  have hdirect : Part.record r ∈ (Part.value (.record r)).direct := List.mem_singleton_self _
  exact ⟨_, mem_parts_of_value h, within_of_mem_direct hdirect⟩

/-- Writing to the draft of a box leaves the box alone, although the two are one before, and a write
to the box itself fails and changes nothing. A box that is written into the empty crate is found
there in the box that is built for it; one in a list in a map from which a crate is built is found
in the list; and what is taken out of the outer box is the very same box. -/
theorem copy_on_write_box :
    (box.toDraft.type = box.type ∧ box.toDraft.fields = box.fields) ∧
    (∃ e, (script crateSteps).exec ⟨.write "box" "item" (.str "pen"), none⟩ =
      (.error e, script crateSteps)) ∧
    (∃ s' r, (script crateSteps).exec ⟨.write "draft" "item" (.str "pen"), none⟩ =
        (.ok (.value (.record r)), s') ∧
      s'.value "draft" = .ok (.record r) ∧ r.draft = true ∧ box.identical r = false ∧
      s'.value "box" = .ok (.record box)) ∧
    (∃ s' v, (script crateSteps).exec ⟨.setIn "crate" ["content", "item"] (.name "box"), none⟩ =
        (.ok (.value v), s') ∧ v.at? [.key "content", .key "item"] = some (.record box)) ∧
    (∃ s' v, (script crateSteps).exec
        ⟨.construct "Crate" (.map [("rest", .list [.null, .name "draft"])]), none⟩ =
        (.ok (.value v), s') ∧ v.at? [.key "rest", .item 1] = some (.record box.toDraft)) ∧
    ∃ s', (script crateSteps).exec ⟨.getIn "outer" ["item"], none⟩ =
      (.ok (.value (.record box)), s') := by
  have hbox : (script crateSteps).value "box" = .ok (.record box) := rfl
  have hdraft : (script crateSteps).value "draft" = .ok (.record box.toDraft) := rfl
  obtain ⟨hagree, -, hstep⟩ := copy_on_write crateSteps
  refine ⟨hagree _ _ (holds_of_value hdraft) (holds_of_value hbox) rfl, ?_, ?_, ?_, ?_, ?_⟩
  · obtain ⟨e, s', hexec⟩ : ∃ e s', (script crateSteps).exec
        ⟨.write "box" "item" (.str "pen"), none⟩ = (.error e, s') := ⟨_, _, rfl⟩
    obtain rfl := (hstep _).1 e s' hexec
    exact ⟨e, hexec⟩
  · obtain ⟨out, s', hexec⟩ : ∃ out s', (script crateSteps).exec
        ⟨.write "draft" "item" (.str "pen"), none⟩ = (.ok out, s') := ⟨_, _, rfl⟩
    obtain ⟨hkept, hmade, -⟩ := (hstep _).2.1 out s' hexec
    obtain ⟨r, rfl, ⟨-, hnew, -⟩, hderives, htarget⟩ := hmade rfl
    have hrdraft : r.draft = true := by
      cases hderives with
      | edited hedits _ hflag _ =>
        cases hedits with
        | write hr _ => exact hflag.trans (Except.ok.inj hr ▸ rfl)
    refine ⟨s', r, hexec, htarget "draft" rfl, hrdraft, hnew _ (holds_of_value hbox), ?_⟩
    exact ((hkept "box" (by decide)).2.2 (by decide)).trans hbox
  · obtain ⟨out, s', hexec⟩ : ∃ out s', (script crateSteps).exec
        ⟨.setIn "crate" ["content", "item"] (.name "box"), none⟩ = (.ok out, s') := ⟨_, _, rfl⟩
    obtain ⟨v, rfl, hat⟩ := ((hstep _).2.1 out s' hexec).2.2 [.key "content", .key "item"] box
      (.edit (.setIn rfl rfl) (.field rfl rfl (.built rfl rfl (.taken rfl rfl))))
      (holds_of_value hbox)
    exact ⟨s', v, hexec, hat⟩
  · obtain ⟨out, s', hexec⟩ : ∃ out s', (script crateSteps).exec
        ⟨.construct "Crate" (.map [("rest", .list [.null, .name "draft"])]), none⟩ =
          (.ok out, s') := ⟨_, _, rfl⟩
    obtain ⟨v, rfl, hat⟩ := ((hstep _).2.1 out s' hexec).2.2 [.key "rest", .item 1] box.toDraft
      (.construct rfl rfl rfl (.taken rfl rfl)) (holds_of_value hdraft)
    exact ⟨s', v, hexec, hat⟩
  · exact (hstep ⟨.getIn "outer" ["item"], none⟩).2.2 _ (.getIn rfl rfl)

end Session

end Schemata
