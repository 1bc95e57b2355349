import Schemata.Reading

/-!
# Writing records

A record is written in place: an operation (`InPlace`) works on a record that somebody holds, and
what it has done to the record by the time it fails would stay. Nothing has been done by then
(`InPlace.Atomic`), because a value is read through the type of its field before the field is
touched. A write that succeeds gives the record fresh storage.

`Record.set` writes to a copy and keeps the draft flag; the record that was copied is a value and
stays what it was. `InPlace.write` is for drafts only.

Named properties read and assign fields through the accessors of the record's type and its
ancestors. The accessors are those that the library makes, the two forms of `Property`. Accessors
that a caller writes, and what these may do to a record, are not part of it.
-/

namespace Schemata

/-! ## Operations in place -/

/-- An operation on a record in place. It gives a result or fails, and leaves a record either
way. -/
abbrev InPlace (α : Type) := ExceptT RecordError (StateM Record) α

namespace InPlace

variable {α β : Type}

/-- What the operation gives on `r`, and the record that it leaves there. -/
def on (op : InPlace α) (r : Record) : Except RecordError α × Record :=
  Id.run (StateT.run (ExceptT.run op) r)

/-- A copy of `r` after the operation, if this succeeds on it. -/
def onCopy (op : InPlace Unit) (r : Record) : Except RecordError Record :=
  match op.on r with
  | (.ok _, r') => .ok r'
  | (.error e, _) => .error e

/-- Sets the field `key` to what its type makes of `v`. -/
def put (key : String) (v : Value) : InPlace Unit := do
  let r ← get
  match r.type.field? key with
  | none => throw (.unknownField key r.type.name)
  | some F =>
    let x ← F.readField key v
    modify fun r ↦ { r with fields := Entries.put r.fields key x, storage := none }

/-- The operation on a draft; any other record is refused. -/
def onDraft (op : InPlace Unit) : InPlace Unit := do
  if (← get).draft then op else throw .notADraft

/-- Sets the field `key` of a draft to what its type makes of `v`. -/
def write (key : String) (v : Value) : InPlace Unit := onDraft (put key v)

/-- Sets the field of a property. -/
def assignThrough (p : Property) (v : Value) : InPlace Unit :=
  match p with
  | .field key => write key v
  | .draftOnly key => onDraft (write key v)

/-- Assigns the property `name` of the record's type or of an ancestor. -/
def assign (name : String) (v : Value) : InPlace Unit := do
  let r ← get
  match r.type.property? name with
  | none => throw (.unknownField name r.type.name)
  | some p => assignThrough p v

/-! ### Step by step -/

theorem on_bind (op : InPlace α) (next : α → InPlace β) (r : Record) :
    (op >>= next).on r =
      match op.on r with
      | (.ok a, r') => (next a).on r'
      | (.error e, r') => (.error e, r') := by
  have hbind : (op >>= next).on r =
      match op.on r with
      | (result, r') => Id.run (ExceptT.bindCont next result r') := rfl
  rw [hbind]
  rcases op.on r with ⟨e | a, r'⟩ <;> rfl

theorem on_get_bind (next : Record → InPlace β) (r : Record) :
    (get >>= next : InPlace β).on r = (next r).on r := rfl

theorem on_put (key : String) (v : Value) (r : Record) :
    (put key v).on r =
      match r.type.field? key with
      | none => (.error (.unknownField key r.type.name), r)
      | some F =>
        match F.readField key v with
        | .error e => (.error e, r)
        | .ok x => (.ok (), { r with fields := Entries.put r.fields key x, storage := none }) := by
  rw [put, on_get_bind]
  cases r.type.field? key with
  | none => rfl
  | some F =>
    have hread : (liftM (F.readField key v) : InPlace Value).on r = (F.readField key v, r) := rfl
    simp only [on_bind, hread]
    cases F.readField key v <;> rfl

theorem on_onDraft (op : InPlace Unit) (r : Record) :
    (onDraft op).on r = if r.draft then op.on r else (.error .notADraft, r) := by
  rw [onDraft, on_get_bind]
  split <;> rfl

theorem onCopy_onDraft (op : InPlace Unit) (r : Record) :
    (onDraft op).onCopy r = if r.draft then op.onCopy r else .error .notADraft := by
  rw [onCopy, on_onDraft]
  cases r.draft <;> rfl

theorem on_assign (name : String) (v : Value) (r : Record) :
    (assign name v).on r =
      match r.type.property? name with
      | none => (.error (.unknownField name r.type.name), r)
      | some p => (assignThrough p v).on r := by
  rw [assign, on_get_bind]
  cases r.type.property? name <;> rfl

/-! ### Failures -/

/-- Where the operation fails it leaves the record as it was. -/
def Atomic (op : InPlace α) : Prop :=
  ∀ r e r', op.on r = (.error e, r') → r' = r

theorem Atomic.onDraft {op : InPlace Unit} (h : op.Atomic) : (onDraft op).Atomic := by
  intro r e r' hr
  rw [on_onDraft] at hr
  split at hr
  · exact h r e r' hr
  · exact (Prod.mk.inj hr).2.symm

/-- A field that is not there, or that refuses the value, has not been touched. -/
theorem atomic_put (key : String) (v : Value) : (put key v).Atomic := by
  intro r e r' h
  rw [on_put] at h
  split at h
  · exact (Prod.mk.inj h).2.symm
  · split at h
    · exact (Prod.mk.inj h).2.symm
    · cases (Prod.mk.inj h).1

theorem atomic_write (key : String) (v : Value) : (write key v).Atomic :=
  (atomic_put key v).onDraft

theorem atomic_assignThrough (p : Property) (v : Value) : (assignThrough p v).Atomic := by
  cases p with
  | field key => exact atomic_write key v
  | draftOnly key => exact (atomic_write key v).onDraft

/-- **Assigning is atomic**, through either form of property. -/
theorem atomic_assign (name : String) (v : Value) : (assign name v).Atomic := by
  intro r e r' h
  rw [on_assign] at h
  split at h
  · exact (Prod.mk.inj h).2.symm
  · exact atomic_assignThrough _ v r e r' h

end InPlace

/-! ## Writes -/

namespace Record

/-- The record with the field `key` set to what its type makes of `v`. -/
def set (r : Record) (key : String) (v : Value) : Except RecordError Record :=
  (InPlace.put key v).onCopy r

/-- The record with the field `key` set to its default. -/
def reset (r : Record) (key : String) : Except RecordError Record := r.set key .undefined

/-- The draft with the field `key` set to what its type makes of `v`. -/
def write (r : Record) (key : String) (v : Value) : Except RecordError Record :=
  (InPlace.write key v).onCopy r

theorem set_eq (r : Record) (key : String) (v : Value) :
    r.set key v =
      match r.type.field? key with
      | none => .error (.unknownField key r.type.name)
      | some F => (F.readField key v).map fun x ↦
          { r with fields := Entries.put r.fields key x, storage := none } := by
  rw [set, InPlace.onCopy, InPlace.on_put]
  cases r.type.field? key with
  | none => rfl
  | some F => cases hx : F.readField key v <;> simp [hx, Except.map]

theorem write_eq (r : Record) (key : String) (v : Value) :
    r.write key v = if r.draft then r.set key v else .error .notADraft := by
  rw [write, InPlace.write, InPlace.onCopy_onDraft, set]

end Record

/-! ## What a write changes

A successful write changes one field and the storage; type and draft flag stay. -/

namespace Record

/-- A write succeeds exactly if the type has the field and the field takes the value. -/
theorem set_eq_ok_iff {r r' : Record} {key : String} {v : Value} :
    r.set key v = .ok r' ↔ ∃ F x, r.type.field? key = some F ∧ F.readField key v = .ok x ∧
      r' = { r with fields := Entries.put r.fields key x, storage := none } := by
  cases hF : r.type.field? key with
  | none => simp [set_eq, hF]
  | some F =>
    cases hx : F.readField key v with
    | error e => simp [set_eq, hF, hx, Except.map]
    | ok x => simp [set_eq, hF, hx, Except.map, eq_comm]

/-- A write fails if the type has no such field, or with what the field says of the value. -/
theorem set_eq_error_iff {r : Record} {key : String} {v : Value} {e : RecordError} :
    r.set key v = .error e ↔
      (r.type.field? key = none ∧ e = .unknownField key r.type.name) ∨
        ∃ F cause, r.type.field? key = some F ∧ F.read (F.orDefault v) = .error cause ∧
          e = .invalidField key cause := by
  cases hF : r.type.field? key with
  | none => simp [set_eq, hF, eq_comm]
  | some F =>
    cases hx : F.read (F.orDefault v) with
    | error cause =>
      have hset : r.set key v = .error (.invalidField key cause) := by
        simp only [set_eq, hF, FieldType.readField, hx]
        rfl
      simp [hset, hx, eq_comm]
    | ok x =>
      have hset : r.set key v =
          .ok { r with fields := Entries.put r.fields key x, storage := none } := by
        simp only [set_eq, hF, FieldType.readField, hx]
        rfl
      simp [hset, hx]

theorem type_of_set {r r' : Record} {key : String} {v : Value} (h : r.set key v = .ok r') :
    r'.type = r.type := by
  obtain ⟨_, _, _, _, rfl⟩ := set_eq_ok_iff.mp h
  rfl

theorem draft_of_set {r r' : Record} {key : String} {v : Value} (h : r.set key v = .ok r') :
    r'.draft = r.draft := by
  obtain ⟨_, _, _, _, rfl⟩ := set_eq_ok_iff.mp h
  rfl

/-- Other fields keep their values. -/
theorem get?_of_set {r r' : Record} {key other : String} {v : Value} (h : r.set key v = .ok r')
    (hne : key ≠ other) : r'.get? other = r.get? other := by
  obtain ⟨_, _, _, _, rfl⟩ := set_eq_ok_iff.mp h
  simp [get?, Entries.get?_put, hne]

end Record

/-! ## Named properties -/

/-- The key of the field that a property reads and assigns. -/
def Property.key : Property → String
  | .field key | .draftOnly key => key

/-- The value of a property of a record. -/
def Property.read (p : Property) (r : Record) : Value := r.getD p.key

/-- The record with a property assigned. -/
def Property.assign (p : Property) (r : Record) (v : Value) : Except RecordError Record :=
  (InPlace.assignThrough p v).onCopy r

/-- Both forms of properties assign by a write in place. -/
theorem Property.assign_eq_write (p : Property) (r : Record) (v : Value) :
    p.assign r v = r.write p.key v := by
  cases p with
  | field key => rfl
  | draftOnly key =>
    rw [assign, InPlace.assignThrough, InPlace.onCopy_onDraft, ← Record.write, Property.key,
      Record.write_eq]
    split <;> rfl

namespace Record

/-- The value of a named property, if the record's type or an ancestor has it. -/
def property? (r : Record) (name : String) : Option Value :=
  (r.type.property? name).map (·.read r)

/-- The record with a named property assigned. -/
def assign (r : Record) (name : String) (v : Value) : Except RecordError Record :=
  (InPlace.assign name v).onCopy r

theorem assign_eq (r : Record) (name : String) (v : Value) :
    r.assign name v =
      match r.type.property? name with
      | none => .error (.unknownField name r.type.name)
      | some p => p.assign r v := by
  rw [assign, InPlace.onCopy, InPlace.on_assign]
  cases r.type.property? name <;> rfl

end Record

end Schemata
