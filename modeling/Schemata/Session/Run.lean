import Schemata.Record.Path
import Schemata.RecordType.Declare
import Schemata.Session.Basic
import Schemata.Storage

/-!
# Running a session

A step performs its command and binds the result to a name. What a command makes is new to the
session: a declared record type takes the next unused identity, and the fresh records in a value, or
in the default of an optional, are numbered from there on.

Two commands write in place, to the record bound to a name. What the operation leaves of this record
is bound to the name afterwards, whether the operation succeeds or fails; every other binding is
left alone, also one that held the same record. The other commands only compute something from what
the session holds, and if they fail there is nothing to take in. So a step that fails is expected to
leave the session as it was, but for writes in place this is a property of the operation
(`InPlace.Atomic`) and has to be proved (`Session.exec_error`).
-/

namespace Schemata

/-- What a command gives. -/
inductive Outcome where
  | recordType (T : RecordType)
  | fieldType (F : FieldType)
  | value (v : Value)
  /-- There is nothing under the key, path or name asked for. -/
  | nothing

namespace Session

/-! ## Taking results in -/

/-- Takes in a record type declared with the next identity. -/
def receiveType (s : Session) (T : RecordType) : Session × Outcome :=
  ({ s with supply := s.supply + 1 }, .recordType T)

/-- Takes in a field type, with its fresh records numbered. -/
def receiveFieldType (s : Session) (F : FieldType) : Session × Outcome :=
  let (F, next) := F.settle s.supply
  ({ s with supply := next }, .fieldType F)

/-- Takes in a value, with its fresh records numbered. -/
def receive (s : Session) (v : Value) : Session × Outcome :=
  let (v, next) := v.settle s.supply
  ({ s with supply := next }, .value v)

/-- Takes in a value if there is one. -/
def receive? (s : Session) : Option Value → Session × Outcome
  | none => (s, .nothing)
  | some v => s.receive v

/-- Takes in a record in the place of the one bound to `name`. -/
def replace (s : Session) (name : String) (r : Record) : Session × Outcome :=
  let (r, next) := r.settle s.supply
  ({ s with values := Entries.put s.values name (.record r), supply := next }, .value (.record r))

/-! ## Steps -/

/-- What comes of a command that computes `result` from the session. -/
def taking (s : Session) (result : Except Failure (Session × Outcome)) :
    Except Failure Outcome × Session :=
  match result with
  | .error e => (.error e, s)
  | .ok (s, outcome) => (.ok outcome, s)

/-- What comes of an operation in place, with an argument, on the record bound to `name`. -/
def inPlace (s : Session) (name : String) (arg : Except Failure Value) (op : Value → InPlace Unit) :
    Except Failure Outcome × Session :=
  match s.record name with
  | .error e => (.error e, s)
  | .ok r =>
    match arg with
    | .error e => (.error e, s)
    | .ok v =>
      match (op v).on r with
      | (.ok _, r') => s.taking (.ok (s.replace name r'))
      | (.error e, r') =>
        (.error (.record e), { s with values := Entries.put s.values name (.record r') })

/-- Attempts a command: what it gives or why it fails, and the session that it leaves. -/
def attempt (s : Session) : Command → Except Failure Outcome × Session
  | .declare fields label => s.taking do
    let fields ← s.evalFields fields
    let T ← (RecordType.declare s.supply fields label).mapError .declaration
    return s.receiveType T
  | .extend base fields label => s.taking do
    let base ← s.type base
    let fields ← s.evalFields fields
    let T ← (base.extend s.supply fields label).mapError .declaration
    return s.receiveType T
  | .extendSpec base fields label => s.taking do
    let base ← s.evalSpec base
    let fields ← s.evalFields fields
    let T ← (RecordType.extendSpec s.supply base fields label).mapError .declaration
    return s.receiveType T
  | .relabel base label => s.taking do
    let base ← s.type base
    return s.receiveType (base.relabelled s.supply label)
  | .derive base schema properties label => s.taking do
    let base ← s.type base
    let fields ← s.evalFields schema
    let schema ← (resolveFields fields).mapError .declaration
    let properties := Entries.ofList (properties.map fun (name, key) ↦ (name, Property.field key))
    return s.receiveType (base.derived s.supply schema label properties)
  | .resolve spec => s.taking do
    match ← s.evalType? spec with
    | none => return (s, .nothing)
    | some F => return s.receiveFieldType F
  | .optionalOf spec default => s.taking do
    let spec ← s.evalSpec spec
    let default ← s.eval default
    let F ← (FieldType.optionalOf spec default).mapError .declaration
    return s.receiveFieldType F
  | .enumOf members default => s.taking do
    let members ← s.evalItems members
    let default ← s.eval default
    let F ← (FieldType.enumOf members default).mapError .declaration
    return s.receiveFieldType F
  | .enumOfList members default => s.taking do
    let members ← s.eval members
    let default ← s.eval default
    let F ← (FieldType.enumOfList members default).mapError .declaration
    return s.receiveFieldType F
  | .unionOf tag branches fallback => s.taking do
    let branches ← s.evalSpecs branches
    let fallback ← fallback.mapM s.evalSpec
    let F ← (FieldType.unionOf tag branches fallback).mapError .declaration
    return s.receiveFieldType F
  | .read spec value => s.taking do
    let value ← s.eval value
    match ← s.evalType? spec with
    | none => throw .noType
    | some F => return s.receive (← (F.read value).mapError .read)
  | .construct type value => s.taking do
    let T ← s.type type
    let value ← s.eval value
    return s.receive (.record (← (T.construct value).mapError .record))
  | .set record key value => s.taking do
    let r ← s.record record
    let value ← s.eval value
    return s.receive (.record (← (r.set key value).mapError .record))
  | .reset record key => s.taking do
    let r ← s.record record
    return s.receive (.record (← (r.reset key).mapError .record))
  | .setIn record path value => s.taking do
    let r ← s.record record
    let value ← s.eval value
    return s.receive (.record (← (r.setIn path value).mapError .record))
  | .toDraft record => s.taking do
    let r ← s.record record
    return s.receive (.record r.toDraft)
  | .commit record => s.taking do
    let r ← s.record record
    return s.receive (.record r.commit)
  | .write record key value => s.inPlace record (s.eval value) (InPlace.write key)
  | .assign record property value => s.inPlace record (s.eval value) (InPlace.assign property)
  | .get record key => s.taking do
    let r ← s.record record
    return s.receive? (r.get? key)
  | .getIn record path => s.taking do
    let r ← s.record record
    return s.receive? (r.getIn? path)
  | .property record name => s.taking do
    let r ← s.record record
    return s.receive? (r.property? name)
  | .value t => s.taking do
    let v ← s.eval t
    return s.receive v
  | .json j => s.taking (.ok (s.receive j.toValue))
  | .integer i => s.taking (.ok (s.receive (.num (.ofInt i))))

/-- Binds a result to a name, in the table of its kind. -/
def keep (s : Session) (name : String) : Outcome → Session
  | .recordType T => { s with types := Entries.put s.types name T }
  | .fieldType F => { s with fieldTypes := Entries.put s.fieldTypes name F }
  | .value v => { s with values := Entries.put s.values name v }
  | .nothing => s

/-- Runs a step: what its command gives or why it fails, and the session after it. -/
def exec (s : Session) (step : Step) : Except Failure Outcome × Session :=
  match s.attempt step.command, step.binding with
  | (.ok outcome, s), some name => (.ok outcome, s.keep name outcome)
  | (result, s), _ => (result, s)

/-- The session after what succeeds, with the outcome. -/
def result : Except Failure Outcome × Session → Except Failure (Session × Outcome)
  | (.ok outcome, s) => .ok (s, outcome)
  | (.error e, _) => .error e

/-- What a command gives if it succeeds, with the session that took it in. -/
def perform (s : Session) (c : Command) : Except Failure (Session × Outcome) :=
  result (s.attempt c)

/-- What a step gives if it succeeds, with the session after it. -/
def run (s : Session) (step : Step) : Except Failure (Session × Outcome) := result (s.exec step)

/-- The session after a step, whether it succeeds or fails. -/
def after (s : Session) (step : Step) : Session := (s.exec step).2

/-- The session after the steps of a script. -/
def script (steps : List Step) : Session := steps.foldl after empty

end Session

end Schemata
