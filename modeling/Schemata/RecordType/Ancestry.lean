import Schemata.Value.Basic

/-!
# Ancestry of record types

A derived type keeps its parent, so the types above it form a chain, the type itself first
(`RecordType.ancestors`). Being a subtype is membership in that chain, by identity; a named property
is looked up along it, the nearest type first.
-/

namespace Schemata

namespace RecordType

/-- The type, its parent, the parent's parent and so on. -/
def ancestors : RecordType → List RecordType
  | T@⟨_, _, _, none, _⟩ => [T]
  | T@⟨_, _, _, some P, _⟩ => T :: P.ancestors

/-- Whether `S` is `T` or derives from it. -/
def isSubtypeOf (S T : RecordType) : Bool := S.ancestors.any (·.identical T)

/-- The property of this name on the nearest type that has one. -/
def property? (T : RecordType) (name : String) : Option Property :=
  T.ancestors.findSome? fun S ↦ Entries.get? S.properties name

theorem ancestors_of_parent_none {T : RecordType} (h : T.parent = none) : T.ancestors = [T] := by
  obtain ⟨id, label, schema, parent, properties⟩ := T
  obtain rfl : parent = none := h
  rfl

theorem ancestors_of_parent_some {T P : RecordType} (h : T.parent = some P) :
    T.ancestors = T :: P.ancestors := by
  obtain ⟨id, label, schema, parent, properties⟩ := T
  obtain rfl : parent = some P := h
  rfl

/-- A type counts as an ancestor of itself. -/
theorem self_mem_ancestors (T : RecordType) : T ∈ T.ancestors := by
  cases h : T.parent with
  | none => simp [ancestors_of_parent_none h]
  | some P => simp [ancestors_of_parent_some h]

theorem isSubtypeOf_refl (T : RecordType) : T.isSubtypeOf T = true :=
  List.any_eq_true.mpr ⟨T, T.self_mem_ancestors, by simp [identical]⟩

end RecordType

/-- Whether the record's type is `T` or derives from it. -/
def Record.isInstanceOf (r : Record) (T : RecordType) : Bool := r.type.isSubtypeOf T

/-- Whether the value is a record whose type is `T` or derives from it. -/
def Value.isInstanceOf : Value → RecordType → Bool
  | .record r, T => r.isInstanceOf T
  | _, _ => false

end Schemata
