import Schemata.Proofs.Committing

/-!
# Storing records

A record that is stored should be found where it was put as the very same record, with its identity,
its fields and its draft flag. Between the value that holds it and the place where it comes to lie
there are field types that read, one for every field on the way, and each of them either takes a
value as it is, with all that is in it, or builds a record from it and leaves its parts to the next
field types.

So a record at a place of a value is kept if the reads on the way down to it build records, until
one takes what is there (`FieldType.KeepsAt`). A field that finds nothing takes its default, and the
records of this are kept like those of a value that was given.

A nested write passes through a read at every record on its path. `Value.SetsAt` says which records
come through: those in the value that is written, at the end of the path, and those beside the path.
Plain maps, also the ones that are made for what is missing, let everything through.
-/

namespace Schemata

/-! ## Places -/

/-- A step down into a value. -/
inductive Hop where
  /-- To what a map or a record has under a key. -/
  | key (key : String)
  /-- To an item of a list. -/
  | item (i : Nat)

/-- The way down to a place of a value. -/
abbrev Place := List Hop

namespace Value

/-- What is one step down. -/
def hop? : Value → Hop → Option Value
  | v, .key key => v.get? key
  | .list items, .item i => items[i]?
  | _, .item _ => none

/-- What is at a place. -/
def at? : Value → Place → Option Value
  | v, [] => some v
  | v, hop :: rest => (v.hop? hop).bind (at? · rest)

variable {v : Value} {p : Place} {q : Record}

theorem at?_key (v : Value) (key : String) (p : Place) :
    v.at? (.key key :: p) = (v.get? key).bind (·.at? p) := by
  rw [at?]
  cases v <;> rfl

theorem ne_undefined_of_at? (h : v.at? p = some (.record q)) : v ≠ .undefined := by
  rintro rfl
  cases p with
  | nil => cases h
  | cons hop rest => cases hop <;> cases h

/-! ### Settling -/

private theorem exists_getElem?_settleItems (items : List Value) (next i : Nat) :
    ∃ n, (settleItems items next).1[i]? = items[i]?.map fun v ↦ (v.settle n).1 := by
  induction items generalizing next i with
  | nil => exact ⟨next, rfl⟩
  | cons v rest ih =>
    rw [settleItems_cons]
    cases i with
    | zero => exact ⟨next, rfl⟩
    | succ i => exact ih (v.settle next).2 i

private theorem exists_hop?_settle (v : Value) (next : Nat) (hop : Hop) :
    (∃ n, (v.settle next).1.hop? hop = (v.hop? hop).map fun w ↦ (w.settle n).1) ∨
      (v.settle next).1.hop? hop = v.hop? hop := by
  cases hop with
  | key key =>
    have hget := v.exists_get?_settle next key
    cases v <;> exact hget
  | item i =>
    cases v with
    | list items => exact Or.inl (exists_getElem?_settleItems items next i)
    | _ => exact Or.inr rfl

/-- A record that has its number is at the same place once the value around it is settled. -/
theorem at?_settle (hq : q.storage.isSome = true) (h : v.at? p = some (.record q)) (next : Nat) :
    (v.settle next).1.at? p = some (.record q) := by
  induction p generalizing v next with
  | nil =>
    obtain rfl : v = .record q := Option.some.inj h
    rw [settle_record, Record.settle_of_storage hq]
    rfl
  | cons hop rest ih =>
    obtain ⟨w, hw, h⟩ := Option.bind_eq_some_iff.mp h
    rw [at?]
    rcases exists_hop?_settle v next hop with ⟨n, hn⟩ | hsame
    · rw [hn, hw]
      exact ih h n
    · rw [hsame, hw]
      exact h

end Value

/-! ## Reading -/

namespace FieldType

/-- The record type of which the field type builds a record from a value that is there and that it
does not take. -/
def builds? : FieldType → Value → Option RecordType
  | .record T _, v => if v.isInstanceOf T then none else some T
  | .optional inner _, v => if v.isNullish then none else inner.builds? v
  | .union tag branches fallback, v =>
    ((v.get? tag).bind fun t ↦ RecordType.select? branches fallback t.display).filter
      fun T ↦ !v.isInstanceOf T
  | _, _ => none
termination_by structural F => F

/-- The field type keeps the record `q` at a place of a value: it takes the value, or it builds a
record from it and the type of the field on the way keeps `q`. -/
inductive KeepsAt : FieldType → Value → Place → Record → Prop where
  | taken {F v p q} : F.takes v = true → v.at? p = some (.record q) → KeepsAt F v p q
  | built {F G : FieldType} {T : RecordType} {v key p q} : F.builds? v = some T →
    T.field? key = some G → KeepsAt G (G.orDefault (v.getD key)) p q →
      KeepsAt F v (.key key :: p) q

variable {F G : FieldType} {T : RecordType} {v w : Value} {key : String} {p : Place} {q r : Record}

theorem exists_build_of_read (hT : F.builds? v = some T) (h : F.read v = .ok w) :
    ∃ r, T.build v = .ok r ∧ w = .record r := by
  have hconvert {S : RecordType} (hnot : v.isInstanceOf S = false) (h : S.convert v = .ok w) :
      ∃ r, S.build v = .ok r ∧ w = .record r := by
    rwa [RecordType.convert_eq_ok_iff, hnot, if_neg Bool.false_ne_true] at h
  induction F using FieldType.induction with
  | record S d =>
    rw [builds?] at hT
    split at hT
    · cases hT
    · rename_i hnot
      obtain rfl := Option.some.inj hT
      exact hconvert (Bool.eq_false_iff.mpr hnot) (read_record_eq_ok_iff.mp h).2
  | optional inner d ih =>
    rw [builds?] at hT
    split at hT
    · cases hT
    · rename_i hnull
      have hnull := Bool.eq_false_iff.mpr hnull
      rw [read_optional_eq_ok_iff, orDefault_of_not_nullish hnull, hnull] at h
      exact ih hT h
  | union tag branches fallback =>
    obtain ⟨t, S, ht, hS, h⟩ := read_union_eq_ok_iff.mp h
    rw [builds?, ht, Option.bind_some, hS, Option.filter_eq_some_iff] at hT
    obtain ⟨hT, hnot⟩ := hT
    obtain rfl := Option.some.inj hT
    exact hconvert (by simpa using hnot) h
  | any | bool | num | str | enum => cases hT

/-- A record that is built has what the type of a field keeps below the key of the field, if a
record at the place in the value is always found there once the value is read. -/
private theorem at?_of_build_of_read (hr : T.build v = .ok r) (hG : T.field? key = some G)
    (h : ∀ {x}, G.read (G.orDefault (v.getD key)) = .ok x → x.at? p = some (.record q)) :
    (Value.record r).at? (.key key :: p) = some (.record q) := by
  obtain ⟨fields, hfields, rfl⟩ := RecordType.build_eq_ok_iff.mp hr
  obtain ⟨x, hx, hget⟩ := get?_readFields hfields hG
  have hget : (Value.record ⟨T, none, fields, false⟩).get? key = some x := hget
  rw [Value.at?_key, hget]
  exact h (readField_eq_ok_iff.mp hx)

/-- **A record that is kept is found at its place** in what was read. -/
theorem KeepsAt.at?_of_read (h : F.KeepsAt v p q) (hread : F.read v = .ok w) :
    w.at? p = some (.record q) := by
  induction h generalizing w with
  | taken htakes hat =>
    rw [(read_eq_self_iff (Value.ne_undefined_of_at? hat)).mpr htakes] at hread
    obtain rfl := Except.ok.inj hread
    exact hat
  | built hT hG _ ih =>
    obtain ⟨r, hr, rfl⟩ := exists_build_of_read hT hread
    exact at?_of_build_of_read hr hG fun hx ↦ ih hx

/-- The same for a record that is built from the value. -/
theorem KeepsAt.at?_of_build (h : G.KeepsAt (G.orDefault (v.getD key)) p q)
    (hr : T.build v = .ok r) (hG : T.field? key = some G) :
    (Value.record r).at? (.key key :: p) = some (.record q) :=
  at?_of_build_of_read hr hG fun hx ↦ h.at?_of_read hx

end FieldType

/-! ## Nested writes -/

namespace Value

/-- A write of `v` along a path of keys in `c` has the record `q` at a place afterwards. -/
inductive SetsAt (v : Value) : Value → List String → Place → Record → Prop where
  /-- In the value that is written. -/
  | given {c p q} : v.at? p = some (.record q) → SetsAt v c [] p q
  /-- Below a key of a map, or of the map that is made where nothing is. -/
  | plain {c key rest p q} : c.record? = none → SetsAt v (c.getD key) rest p q →
    SetsAt v c (key :: rest) (.key key :: p) q
  /-- In a field that keeps it in what comes up from below. -/
  | field {r key rest F u p q} : r.type.field? key = some F →
    (r.getD key).setIn (key :: rest) rest v = .ok u → F.KeepsAt (F.orDefault u) p q →
      SetsAt v (.record r) (key :: rest) (.key key :: p) q
  /-- Beside the path. -/
  | beside {c key rest other p q} : key ≠ other → c.at? (.key other :: p) = some (.record q) →
    SetsAt v c (key :: rest) (.key other :: p) q

variable {v c w : Value} {path whole : List String} {p : Place} {q : Record}

/-- **What a nested write lets through is found at its place.** -/
theorem SetsAt.at?_of_setIn (h : SetsAt v c path p q) (hset : c.setIn whole path v = .ok w) :
    w.at? p = some (.record q) := by
  induction h generalizing w whole with
  | given hat =>
    obtain rfl := Except.ok.inj hset
    exact hat
  | @plain c key rest p q hc _ ih =>
    rw [at?_key]
    cases c with
    | record r => cases hc
    | map entries =>
      obtain ⟨x, hx, rfl⟩ := map_eq_ok_iff.mp hset
      rw [get?, Entries.get?_put_self]
      exact ih hx
    | undefined | null =>
      obtain ⟨x, hx, rfl⟩ := map_eq_ok_iff.mp hset
      rw [get?, Entries.get?_cons, if_pos rfl]
      exact ih hx
    | _ => cases hset
  | @field r key rest F u p q hF hu hkeeps =>
    obtain ⟨r', hr', rfl⟩ := map_eq_ok_iff.mp hset
    obtain ⟨-, u', hu', hset⟩ := Record.update_eq_ok_iff.mp hr'
    obtain rfl : u = u' := Except.ok.inj (hu.symm.trans hu')
    obtain ⟨F', x, hF', hx, rfl⟩ := Record.set_eq_ok_iff.mp hset
    obtain rfl : F = F' := Option.some.inj (hF.symm.trans hF')
    rw [at?_key, get?, Record.get?, Entries.get?_put_self]
    exact hkeeps.at?_of_read (FieldType.readField_eq_ok_iff.mp hx)
  | @beside c key rest other p q hne hat =>
    rw [at?_key] at hat ⊢
    obtain ⟨x, hx, -⟩ := Option.bind_eq_some_iff.mp hat
    have hnull : c.isNullish = false := by
      cases c with
      | undefined | null => cases hx
      | _ => rfl
    obtain ⟨-, hother, -⟩ := exists_of_setIn_cons hnull hset
    rw [hother other hne]
    exact hat

/-- The same for a record. -/
theorem SetsAt.at?_of_record_setIn {r r' : Record} (h : SetsAt v (.record r) path p q)
    (hset : r.setIn path v = .ok r') : (Value.record r').at? p = some (.record q) := by
  obtain ⟨-, hset⟩ := Record.value_setIn hset
  exact h.at?_of_setIn hset

end Value

end Schemata
