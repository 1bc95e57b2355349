import Schemata.Proofs.Reading
import Schemata.Session.Run

/-!
# What a command does

A command that succeeds does one of five things: it declares a record type, it describes a field
type, it yields a value, it rewrites a bound record, or it finds nothing. A relation for each says
what a command makes, before the session numbers what is fresh, and `performs_of_perform` says that
there is nothing else. An invariant of sessions then needs one case for each constructor. What a
command yields it yields always (`perform_of_yields`).

It needs none of the failures, because a step that fails changes nothing (`exec_error`). Where the
step writes in place this rests on the writes being atomic: the record that a failed write leaves is
put back under its name, and it is the one that was there.
-/

namespace Schemata

namespace Session

variable {s : Session}

/-! ## Attempts -/

theorem value_of_record {name : String} {r : Record} (h : s.record name = .ok r) :
    s.value name = .ok (.record r) := by
  rw [record] at h
  split at h
  · cases h
  · obtain rfl := Except.ok.inj h
    assumption
  · cases h

theorem get?_values_of_record {name : String} {r : Record} (h : s.record name = .ok r) :
    Entries.get? s.values name = some (.record r) := by
  have hvalue := value_of_record h
  rw [value, find] at hvalue
  split at hvalue
  · rename_i hget
    rw [hget, Except.ok.inj hvalue]
  · cases hvalue

@[simp] theorem result_taking (s : Session) (x : Except Failure (Session × Outcome)) :
    result (s.taking x) = x := by
  cases x <;> rfl

/-- An operation in place gives what it gives on a copy. -/
theorem result_inPlace (s : Session) (name : String) (arg : Except Failure Value)
    (op : Value → InPlace Unit) :
    result (s.inPlace name arg op) = do
      let r ← s.record name
      let v ← arg
      return s.replace name (← (((op v).onCopy r).mapError .record)) := by
  rw [inPlace]
  cases s.record name with
  | error e => rfl
  | ok r =>
    cases arg with
    | error e => rfl
    | ok v =>
      rcases h : (op v).on r with ⟨e | _, r'⟩
      · have hcopy : (op v).onCopy r = .error e := by rw [InPlace.onCopy, h]
        simp only [bind, Except.bind, hcopy, h]
        rfl
      · have hcopy : (op v).onCopy r = .ok r' := by rw [InPlace.onCopy, h]
        simp only [bind, Except.bind, hcopy, h]
        rfl

/-! ### Failures -/

theorem taking_error {x : Except Failure (Session × Outcome)} {e : Failure} {s' : Session}
    (h : s.taking x = (.error e, s')) : s' = s := by
  cases x with
  | error e => exact (Prod.mk.inj h).2.symm
  | ok out => cases (Prod.mk.inj h).1

/-- **An atomic operation in place that fails changes nothing.** What it leaves of the record is the
record that the name was bound to. -/
theorem inPlace_error {name : String} {arg : Except Failure Value} {op : Value → InPlace Unit}
    (hop : ∀ v, (op v).Atomic) {e : Failure} {s' : Session}
    (h : s.inPlace name arg op = (.error e, s')) : s' = s := by
  rw [inPlace] at h
  split at h
  · exact (Prod.mk.inj h).2.symm
  · rename_i r hr
    split at h
    · exact (Prod.mk.inj h).2.symm
    · rename_i v
      split at h
      · exact taking_error h
      · rename_i e' r' hfails
        obtain rfl := hop v r e' r' hfails
        rw [Entries.put_eq_self (get?_values_of_record hr)] at h
        exact (Prod.mk.inj h).2.symm

theorem attempt_error {c : Command} {e : Failure} {s' : Session}
    (h : s.attempt c = (.error e, s')) : s' = s := by
  cases c with
  | write name key t => exact inPlace_error (InPlace.atomic_write key) h
  | assign name property t => exact inPlace_error (InPlace.atomic_assign property) h
  | json | integer => cases (Prod.mk.inj h).1
  | _ => exact taking_error h

/-- **A step that fails leaves the session as it was.** -/
theorem exec_error {step : Step} {e : Failure} {s' : Session}
    (h : s.exec step = (.error e, s')) : s' = s := by
  rw [exec] at h
  split at h
  · cases (Prod.mk.inj h).1
  · rename_i result s₁ _ hattempt _
    obtain ⟨rfl, rfl⟩ := Prod.mk.inj h
    exact attempt_error hattempt

theorem run_eq (s : Session) (step : Step) :
    s.run step =
      match s.perform step.command with
      | .error e => .error e
      | .ok (s, outcome) =>
        match step.binding with
        | none => .ok (s, outcome)
        | some name => .ok (s.keep name outcome, outcome) := by
  rw [run, exec, perform]
  rcases s.attempt step.command with ⟨e | outcome, s'⟩
  · rfl
  · cases step.binding <;> rfl

/-- The session after a step is the one that it gives, or the same one if it fails. -/
theorem after_eq (s : Session) (step : Step) :
    s.after step =
      match s.run step with
      | .error _ => s
      | .ok (s', _) => s' := by
  rw [after, run]
  rcases h : s.exec step with ⟨e | outcome, s'⟩
  · exact exec_error h
  · rfl

/-! ## What is made -/

/-- The record type that a command declares. -/
inductive Declares (s : Session) : Command → RecordType → Prop where
  | declare {fields label es T} : s.evalFields fields = .ok es →
    RecordType.declare s.supply es label = .ok T → Declares s (.declare fields label) T
  | extend {name base fields label es T} : s.type name = .ok base → s.evalFields fields = .ok es →
    base.extend s.supply es label = .ok T → Declares s (.extend name fields label) T
  | extendSpec {spec base fields label es T} : s.evalSpec spec = .ok base →
    s.evalFields fields = .ok es → RecordType.extendSpec s.supply base es label = .ok T →
      Declares s (.extendSpec spec fields label) T
  | relabel {name base label} : s.type name = .ok base →
    Declares s (.relabel name label) (base.relabelled s.supply label)
  | derive {name base fields properties label es schema} : s.type name = .ok base →
    s.evalFields fields = .ok es → resolveFields es = .ok schema →
      Declares s (.derive name fields properties label) (base.derived s.supply schema label
        (Entries.ofList (properties.map fun (name, key) ↦ (name, Property.field key))))

/-- The field type that a command describes. -/
inductive Describes (s : Session) : Command → FieldType → Prop where
  | resolve {spec F} : s.evalType? spec = .ok (some F) → Describes s (.resolve spec) F
  | optionalOf {spec inner t d F} : s.evalSpec spec = .ok inner → s.eval t = .ok d →
    FieldType.optionalOf inner d = .ok F → Describes s (.optionalOf spec t) F
  | enumOf {ts members t d F} : s.evalItems ts = .ok members → s.eval t = .ok d →
    FieldType.enumOf members d = .ok F → Describes s (.enumOf ts t) F
  | enumOfList {t members t' d F} : s.eval t = .ok members → s.eval t' = .ok d →
    FieldType.enumOfList members d = .ok F → Describes s (.enumOfList t t') F
  | unionOf {tag specs branches spec fallback F} : s.evalSpecs specs = .ok branches →
    spec.mapM s.evalSpec = .ok fallback → FieldType.unionOf tag branches fallback = .ok F →
      Describes s (.unionOf tag specs spec) F

/-- The value that a command yields. -/
inductive Yields (s : Session) : Command → Value → Prop where
  | read {spec t F v w} : s.evalType? spec = .ok (some F) → s.eval t = .ok v →
    F.read v = .ok w → Yields s (.read spec t) w
  | construct {name t T v r} : s.type name = .ok T → s.eval t = .ok v → T.construct v = .ok r →
    Yields s (.construct name t) (.record r)
  | set {name key t r v r'} : s.record name = .ok r → s.eval t = .ok v → r.set key v = .ok r' →
    Yields s (.set name key t) (.record r')
  | reset {name key r r'} : s.record name = .ok r → r.reset key = .ok r' →
    Yields s (.reset name key) (.record r')
  | setIn {name path t r v r'} : s.record name = .ok r → s.eval t = .ok v →
    r.setIn path v = .ok r' → Yields s (.setIn name path t) (.record r')
  | toDraft {name r} : s.record name = .ok r → Yields s (.toDraft name) (.record r.toDraft)
  | commit {name r} : s.record name = .ok r → Yields s (.commit name) (.record r.commit)
  | get {name key r v} : s.record name = .ok r → r.get? key = some v → Yields s (.get name key) v
  | getIn {name path r v} : s.record name = .ok r → r.getIn? path = some v →
    Yields s (.getIn name path) v
  | property {name key r v} : s.record name = .ok r → r.property? key = some v →
    Yields s (.property name key) v
  | value {t v} : s.eval t = .ok v → Yields s (.value t) v
  | json {j} : Yields s (.json j) j.toValue
  | integer {i} : Yields s (.integer i) (.num (.ofInt i))

/-- The record that a command puts in the place of the one bound to a name. -/
inductive Rewrites (s : Session) : Command → String → Record → Prop where
  | write {name key t r v r'} : s.record name = .ok r → s.eval t = .ok v →
    r.write key v = .ok r' → Rewrites s (.write name key t) name r'
  | assign {name key t r v r'} : s.record name = .ok r → s.eval t = .ok v →
    r.assign key v = .ok r' → Rewrites s (.assign name key t) name r'

/-- There is nothing to be found for a command. -/
inductive FindsNothing (s : Session) : Command → Prop where
  | resolve {spec} : s.evalType? spec = .ok none → FindsNothing s (.resolve spec)
  | get {name key r} : s.record name = .ok r → r.get? key = none → FindsNothing s (.get name key)
  | getIn {name path r} : s.record name = .ok r → r.getIn? path = none →
    FindsNothing s (.getIn name path)
  | property {name key r} : s.record name = .ok r → r.property? key = none →
    FindsNothing s (.property name key)

/-- What a command leaves: the session that took in what the command makes, and the result. -/
inductive Performs (s : Session) (c : Command) : Session × Outcome → Prop where
  | declares {T} : s.Declares c T → Performs s c (s.receiveType T)
  | describes {F} : s.Describes c F → Performs s c (s.receiveFieldType F)
  | yields {v} : s.Yields c v → Performs s c (s.receive v)
  | rewrites {name r} : s.Rewrites c name r → Performs s c (s.replace name r)
  | nothing : s.FindsNothing c → Performs s c (s, .nothing)

private theorem performs_receive? {c : Command} {x : Option Value}
    (h : ∀ v, x = some v → s.Yields c v) (hnone : x = none → s.FindsNothing c) :
    s.Performs c (s.receive? x) := by
  cases x with
  | none => exact .nothing (hnone rfl)
  | some v => exact .yields (h v rfl)

/-- **What a command can do.** -/
theorem performs_of_perform {c : Command} {out : Session × Outcome} (h : s.perform c = .ok out) :
    s.Performs c out := by
  rw [perform] at h
  -- Peeling the computations of a command apart leaves its one success.
  cases c with
  | declare fields label =>
    simp only [attempt, result_taking, bind_eq_ok_iff, mapError_eq_ok_iff, pure_eq_ok_iff] at h
    obtain ⟨es, hes, T, hT, rfl⟩ := h
    exact .declares (.declare hes hT)
  | extend base fields label =>
    simp only [attempt, result_taking, bind_eq_ok_iff, mapError_eq_ok_iff, pure_eq_ok_iff] at h
    obtain ⟨B, hB, es, hes, T, hT, rfl⟩ := h
    exact .declares (.extend hB hes hT)
  | extendSpec base fields label =>
    simp only [attempt, result_taking, bind_eq_ok_iff, mapError_eq_ok_iff, pure_eq_ok_iff] at h
    obtain ⟨B, hB, es, hes, T, hT, rfl⟩ := h
    exact .declares (.extendSpec hB hes hT)
  | relabel base label =>
    simp only [attempt, result_taking, bind_eq_ok_iff, pure_eq_ok_iff] at h
    obtain ⟨B, hB, rfl⟩ := h
    exact .declares (.relabel hB)
  | derive base schema properties label =>
    simp only [attempt, result_taking, bind_eq_ok_iff, mapError_eq_ok_iff, pure_eq_ok_iff] at h
    obtain ⟨B, hB, es, hes, added, hadded, rfl⟩ := h
    exact .declares (.derive hB hes hadded)
  | resolve spec =>
    simp only [attempt, result_taking, bind_eq_ok_iff] at h
    obtain ⟨F?, hF, hout⟩ := h
    cases F? with
    | none =>
      obtain rfl := pure_eq_ok_iff.mp hout
      exact .nothing (.resolve hF)
    | some F =>
      obtain rfl := pure_eq_ok_iff.mp hout
      exact .describes (.resolve hF)
  | optionalOf spec default =>
    simp only [attempt, result_taking, bind_eq_ok_iff, mapError_eq_ok_iff, pure_eq_ok_iff] at h
    obtain ⟨inner, hinner, d, hd, F, hF, rfl⟩ := h
    exact .describes (.optionalOf hinner hd hF)
  | enumOf members default =>
    simp only [attempt, result_taking, bind_eq_ok_iff, mapError_eq_ok_iff, pure_eq_ok_iff] at h
    obtain ⟨ms, hms, d, hd, F, hF, rfl⟩ := h
    exact .describes (.enumOf hms hd hF)
  | enumOfList members default =>
    simp only [attempt, result_taking, bind_eq_ok_iff, mapError_eq_ok_iff, pure_eq_ok_iff] at h
    obtain ⟨ms, hms, d, hd, F, hF, rfl⟩ := h
    exact .describes (.enumOfList hms hd hF)
  | unionOf tag branches fallback =>
    simp only [attempt, result_taking, bind_eq_ok_iff, mapError_eq_ok_iff, pure_eq_ok_iff] at h
    obtain ⟨bs, hbs, fb, hfb, F, hF, rfl⟩ := h
    exact .describes (.unionOf hbs hfb hF)
  | read spec value =>
    simp only [attempt, result_taking, bind_eq_ok_iff] at h
    obtain ⟨v, hv, F?, hF, hout⟩ := h
    cases F? with
    | none => cases hout
    | some F =>
      simp only [bind_eq_ok_iff, mapError_eq_ok_iff, pure_eq_ok_iff] at hout
      obtain ⟨w, hw, rfl⟩ := hout
      exact .yields (.read hF hv hw)
  | construct type value =>
    simp only [attempt, result_taking, bind_eq_ok_iff, mapError_eq_ok_iff, pure_eq_ok_iff] at h
    obtain ⟨T, hT, v, hv, r, hr, rfl⟩ := h
    exact .yields (.construct hT hv hr)
  | set record key value =>
    simp only [attempt, result_taking, bind_eq_ok_iff, mapError_eq_ok_iff, pure_eq_ok_iff] at h
    obtain ⟨r, hr, v, hv, r', hr', rfl⟩ := h
    exact .yields (.set hr hv hr')
  | reset record key =>
    simp only [attempt, result_taking, bind_eq_ok_iff, mapError_eq_ok_iff, pure_eq_ok_iff] at h
    obtain ⟨r, hr, r', hr', rfl⟩ := h
    exact .yields (.reset hr hr')
  | setIn record path value =>
    simp only [attempt, result_taking, bind_eq_ok_iff, mapError_eq_ok_iff, pure_eq_ok_iff] at h
    obtain ⟨r, hr, v, hv, r', hr', rfl⟩ := h
    exact .yields (.setIn hr hv hr')
  | toDraft record =>
    simp only [attempt, result_taking, bind_eq_ok_iff, pure_eq_ok_iff] at h
    obtain ⟨r, hr, rfl⟩ := h
    exact .yields (.toDraft hr)
  | commit record =>
    simp only [attempt, result_taking, bind_eq_ok_iff, pure_eq_ok_iff] at h
    obtain ⟨r, hr, rfl⟩ := h
    exact .yields (.commit hr)
  | write record key value =>
    simp only [attempt, result_inPlace, bind_eq_ok_iff, mapError_eq_ok_iff, pure_eq_ok_iff] at h
    obtain ⟨r, hr, v, hv, r', hr', rfl⟩ := h
    exact .rewrites (.write hr hv hr')
  | assign record property value =>
    simp only [attempt, result_inPlace, bind_eq_ok_iff, mapError_eq_ok_iff, pure_eq_ok_iff] at h
    obtain ⟨r, hr, v, hv, r', hr', rfl⟩ := h
    exact .rewrites (.assign hr hv hr')
  | get record key =>
    simp only [attempt, result_taking, bind_eq_ok_iff, pure_eq_ok_iff] at h
    obtain ⟨r, hr, rfl⟩ := h
    exact performs_receive? (fun v hv ↦ .get hr hv) (.get hr)
  | getIn record path =>
    simp only [attempt, result_taking, bind_eq_ok_iff, pure_eq_ok_iff] at h
    obtain ⟨r, hr, rfl⟩ := h
    exact performs_receive? (fun v hv ↦ .getIn hr hv) (.getIn hr)
  | property record name =>
    simp only [attempt, result_taking, bind_eq_ok_iff, pure_eq_ok_iff] at h
    obtain ⟨r, hr, rfl⟩ := h
    exact performs_receive? (fun v hv ↦ .property hr hv) (.property hr)
  | value t =>
    simp only [attempt, result_taking, bind_eq_ok_iff, pure_eq_ok_iff] at h
    obtain ⟨v, hv, rfl⟩ := h
    exact .yields (.value hv)
  | json j =>
    obtain rfl := pure_eq_ok_iff.mp h
    exact .yields .json
  | integer i =>
    obtain rfl := pure_eq_ok_iff.mp h
    exact .yields .integer

/-- A value that a command can yield is the one that it yields. -/
theorem perform_of_yields {c : Command} {v : Value} (h : s.Yields c v) :
    s.perform c = .ok (s.receive v) := by
  cases h with
  | read hF hv hw =>
    rw [perform, attempt, result_taking]
    refine bind_eq_ok_iff.mpr ⟨_, hv, bind_eq_ok_iff.mpr ⟨_, hF, ?_⟩⟩
    exact bind_eq_ok_iff.mpr ⟨_, mapError_eq_ok_iff.mpr hw, rfl⟩
  | construct hx hv hr | set hx hv hr | setIn hx hv hr =>
    simp only [perform, attempt, result_taking, bind_eq_ok_iff, mapError_eq_ok_iff, pure_eq_ok_iff]
    exact ⟨_, hx, _, hv, _, hr, rfl⟩
  | reset hr hr' =>
    simp only [perform, attempt, result_taking, bind_eq_ok_iff, mapError_eq_ok_iff, pure_eq_ok_iff]
    exact ⟨_, hr, _, hr', rfl⟩
  | toDraft hx | commit hx | value hx =>
    simp only [perform, attempt, result_taking, bind_eq_ok_iff, pure_eq_ok_iff]
    exact ⟨_, hx, rfl⟩
  | get hr hv | getIn hr hv | property hr hv =>
    simp only [perform, attempt, result_taking, bind_eq_ok_iff, pure_eq_ok_iff]
    exact ⟨_, hr, by rw [hv, receive?]⟩
  | json | integer => rfl

/-! ## Runs -/

theorem perform_of_run {s' : Session} {step : Step} {out : Outcome}
    (h : s.run step = .ok (s', out)) : ∃ s₁, s.perform step.command = .ok (s₁, out) ∧
      (step.binding = none ∧ s' = s₁ ∨
        ∃ name, step.binding = some name ∧ s' = s₁.keep name out) := by
  rw [run_eq] at h
  split at h
  · cases h
  · rename_i s₁ out₁ hperform
    split at h
    · rename_i hbinding
      obtain ⟨rfl, rfl⟩ := Prod.mk.inj (Except.ok.inj h)
      exact ⟨_, hperform, Or.inl ⟨hbinding, rfl⟩⟩
    · rename_i name hbinding
      obtain ⟨rfl, rfl⟩ := Prod.mk.inj (Except.ok.inj h)
      exact ⟨_, hperform, Or.inr ⟨name, hbinding, rfl⟩⟩

/-- **Induction over scripts**: what every successful step preserves is true after every script. -/
theorem script_induction {P : Session → Prop} (hempty : P empty)
    (hrun : ∀ {s s' : Session} {step : Step} {out : Outcome}, P s →
      s.run step = .ok (s', out) → P s')
    (steps : List Step) : P (script steps) := by
  -- The induction is on the steps still to come, for every session to start from.
  suffices h : ∀ s : Session, P s → P (steps.foldl after s) from h empty hempty
  induction steps with
  | nil => exact fun s hs ↦ hs
  | cons step rest ih =>
    intro s hs
    refine ih (s.after step) ?_
    rw [after_eq]
    split
    · exact hs
    · exact hrun hs (by assumption)

end Session

end Schemata
