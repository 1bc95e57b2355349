import Schemata.Value.Basic

/-!
# Numbering fresh storage

Reading, building and writing leave the records they make with fresh storage, `storage := none`.
Settling a value numbers these records from a supply of unused numbers, an outer record before the
records in its fields, and hands back the rest of the supply. A record that has its number already
is left alone, with all that it holds.
-/

namespace Schemata

mutual

/-- The value with its fresh records numbered from `next` on, and the next unused number. -/
def Value.settle : Value → Nat → Value × Nat
  | .list items, next =>
    let (items, next) := settleItems items next
    (.list items, next)
  | .map entries, next =>
    let (entries, next) := settleEntries entries next
    (.map entries, next)
  | .record r, next =>
    let (r, next) := r.settle next
    (.record r, next)
  | v, next => (v, next)
termination_by structural v => v

/-- The record with itself and the records in it numbered, unless it has its number already. -/
def Record.settle : Record → Nat → Record × Nat
  | ⟨T, none, fields, draft⟩, next =>
    let (fields, rest) := settleEntries fields (next + 1)
    (⟨T, some next, fields, draft⟩, rest)
  | r@⟨_, some _, _, _⟩, next => (r, next)
termination_by structural r => r

/-- The items of a list, settled in order. -/
def settleItems : List Value → Nat → List Value × Nat
  | [], next => ([], next)
  | v :: rest, next =>
    let (v, next) := v.settle next
    let (rest, next) := settleItems rest next
    (v :: rest, next)
termination_by structural vs => vs

/-- The entries of a map or of a record, settled in order. -/
def settleEntries : List (String × Value) → Nat → List (String × Value) × Nat
  | [], next => ([], next)
  | (key, v) :: rest, next =>
    let (v, next) := v.settle next
    let (rest, next) := settleEntries rest next
    ((key, v) :: rest, next)
termination_by structural es => es

end

/-- A field type just declared, settled: the default of an optional is the only part of one that is
made and not given. -/
def FieldType.settle : FieldType → Nat → FieldType × Nat
  | .optional inner d, next =>
    let (d, next) := d.settle next
    (.optional inner d, next)
  | F, next => (F, next)

/-- Settling leaves a record alone that has its number. -/
theorem Record.settle_of_storage {r : Record} (h : r.storage.isSome = true) (next : Nat) :
    r.settle next = (r, next) := by
  obtain ⟨T, _ | i, fields, draft⟩ := r
  · simp at h
  · rfl

end Schemata
