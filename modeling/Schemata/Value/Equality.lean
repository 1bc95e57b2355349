import Schemata.Value.Basic

/-!
# Equality of values

`Value.equal` compares contents: numbers numerically, lists item by item, maps by what each key
holds and not by the order of keys, records by the identity of their type and by their fields.
Drafts equal what they are drafts of. A NaN equals nothing, so a value with a NaN in it does not
equal itself.

`Value.same` differs from it at the top alone: two NaNs are the same, and records are the same only
if they are identical. It decides membership in an enumeration.
-/

namespace Schemata

namespace Value

mutual

/-- Equality of contents. -/
def equal : Value → Value → Bool
  | .undefined, .undefined => true
  | .null, .null => true
  | .bool a, .bool b => a == b
  | .num a, .num b => a.equal b
  | .str a, .str b => a == b
  | .list xs, .list ys => equalItems xs ys
  | .map xs, .map ys => xs.length == ys.length && equalEntries xs ys
  | .record ⟨S, _, xs, _⟩, .record s =>
    S.identical s.type && xs.length == s.fields.length && equalEntries xs s.fields
  | _, _ => false
termination_by structural v => v

/-- Equality of lists, item by item. -/
def equalItems : List Value → List Value → Bool
  | [], [] => true
  | x :: xs, y :: ys => x.equal y && equalItems xs ys
  | _, _ => false
termination_by structural vs => vs

/-- Whether every entry finds an equal value under its key among `ys`. -/
def equalEntries : List (String × Value) → List (String × Value) → Bool
  | [], _ => true
  | (key, x) :: xs, ys =>
    (match Entries.get? ys key with
      | some y => x.equal y
      | none => false) && equalEntries xs ys
termination_by structural es => es

end

/-- Sameness: equality of contents, except that NaNs are the same and records are the same only
if they are identical. -/
def same : Value → Value → Bool
  | .num a, .num b => a.same b
  | .record r, .record s => r.identical s
  | v, w => v.equal w

/-- Whether the value is the same as one of the members. -/
def isAmong (v : Value) (members : List Value) : Bool := members.any (·.same v)

end Value

end Schemata
