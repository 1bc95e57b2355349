import Schemata.FieldType.Declare
import Schemata.Session.Command

/-!
# Sessions

A session binds names to record types, to field types and to values, three tables apart, and holds
the supply of unused identities: every number below `supply` may have been given to a record type or
to a storage, and no number from `supply` on has been. Terms are evaluated against the tables.
-/

namespace Schemata

/-- Why a step fails. -/
inductive Failure where
  /-- A name that nothing is bound to. -/
  | unbound (name : String)
  /-- A name bound to something other than a record where a record is needed. -/
  | notARecord (name : String)
  /-- A value that names no type where a type is needed. -/
  | noType
  | declaration (e : DeclarationError)
  | read (e : ReadError)
  | record (e : RecordError)

/-- The bindings of a session and its supply of identities. -/
structure Session where
  types : Entries RecordType
  fieldTypes : Entries FieldType
  values : Entries Value
  /-- The least identity not in use. -/
  supply : Nat

namespace Session

/-- The session in which nothing is bound. -/
def empty : Session := ⟨[], [], [], 0⟩

/-! ## Names -/

/-- The entry of a table. -/
def find {α : Type} (table : Entries α) (name : String) : Except Failure α :=
  match Entries.get? table name with
  | some x => .ok x
  | none => .error (.unbound name)

def type (s : Session) (name : String) : Except Failure RecordType := find s.types name

def fieldType (s : Session) (name : String) : Except Failure FieldType := find s.fieldTypes name

def value (s : Session) (name : String) : Except Failure Value := find s.values name

/-- The record bound to a name. -/
def record (s : Session) (name : String) : Except Failure Record :=
  match s.value name with
  | .error e => .error e
  | .ok (.record r) => .ok r
  | .ok _ => .error (.notARecord name)

/-- A name to which the very same record type is bound. -/
def nameOf? (s : Session) (T : RecordType) : Option String :=
  s.types.findSome? fun (name, S) ↦ if S.identical T then some name else none

/-! ## Terms -/

mutual

/-- The value that a term writes down. -/
def eval (s : Session) : Term → Except Failure Value
  | .undefined => .ok .undefined
  | .null => .ok .null
  | .bool b => .ok (.bool b)
  | .num n => .ok (.num n)
  | .str t => .ok (.str t)
  | .list items => (evalItems s items).map .list
  | .map entries => (evalEntries s entries).map fun es ↦ .map (Entries.ofList es)
  | .name name => s.value name
termination_by structural t => t

/-- The values of a list of terms. -/
def evalItems (s : Session) : List Term → Except Failure (List Value)
  | [] => .ok []
  | t :: rest =>
    match s.eval t with
    | .error e => .error e
    | .ok v => (evalItems s rest).map (v :: ·)
termination_by structural ts => ts

/-- The values of a list of terms under keys. -/
def evalEntries (s : Session) : List (String × Term) → Except Failure (List (String × Value))
  | [] => .ok []
  | (key, t) :: rest =>
    match s.eval t with
    | .error e => .error e
    | .ok v => (evalEntries s rest).map ((key, v) :: ·)
termination_by structural es => es

end

/-- The declaration that a spec term writes down. -/
def evalSpec (s : Session) : SpecTerm → Except Failure FieldSpec
  | .any => .ok (.type .any)
  | .bool => .ok (.type (.bool none))
  | .num => .ok (.type (.num none))
  | .str => .ok (.type (.str none))
  | .literal t => (s.eval t).map .literal
  | .recordType name => (s.type name).map fun T ↦ .type (.ofRecordType T)
  | .fieldType name => (s.fieldType name).map .type

/-- The declarations of a list of spec terms under keys. -/
def evalSpecs (s : Session) : List (String × SpecTerm) → Except Failure (List (String × FieldSpec))
  | [] => .ok []
  | (key, t) :: rest =>
    match s.evalSpec t with
    | .error e => .error e
    | .ok spec => (evalSpecs s rest).map ((key, spec) :: ·)

/-- The declarations of the fields of a type: of a repeated key the last one stays, at the position
of the first. -/
def evalFields (s : Session) (fields : List (String × SpecTerm)) :
    Except Failure (Entries FieldSpec) :=
  (s.evalSpecs fields).map Entries.ofList

/-- The field type that a spec term stands for, if it stands for one. -/
def evalType? (s : Session) (t : SpecTerm) : Except Failure (Option FieldType) :=
  (s.evalSpec t).map FieldSpec.resolve

end Session

end Schemata
