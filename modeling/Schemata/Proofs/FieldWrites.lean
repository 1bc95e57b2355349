import Schemata.Proofs.NewNumbers

/-!
# Writing field by field

A record can be built at once from a map, or it can be written to, one field after the other. These
are separate paths: the first makes the fields anew and takes a default for every key that the map
does not have, the second replaces single fields of a record that is there. They agree because a
write depends on the type of its field and on the value alone, not on what the record holds
(`RecordType.stored?`).

From this it follows what a run of writes amounts to. It succeeds if each of its writes would on its
own (`Record.exists_applyAll_iff`), it keeps the keys, and under a key it leaves what the last write
to this key stores (`Record.exists_get?_of_applyAll`) or, if there is none, the very value that was
there (`Record.get?_of_applyAll`). So the order of writes to different keys has no influence, and
writing all fields of a record to what a map has under their keys, in any order, gives the fields of
the record built from the map.

In a session every record that is written gets a number for its new storage before the next write,
and so do the records that were built for its field. Runs do the same here. Which numbers these are
depends on the order of the writes, and results are compared without them (`Record.unnumbered`):
records that were there before must be the very same ones in both.
-/

namespace Schemata

/-- What a field of the type stores for a value, if there is the field and it takes the value. -/
def RecordType.stored? (T : RecordType) (key : String) (v : Value) : Option Value :=
  (T.field? key).bind fun F ↦ (F.readField key v).toOption

theorem RecordType.stored?_eq_some_iff {T : RecordType} {key : String} {v x : Value} :
    T.stored? key v = some x ↔ ∃ F, T.field? key = some F ∧ F.readField key v = .ok x := by
  rw [stored?, Option.bind_eq_some_iff]
  refine exists_congr fun F ↦ and_congr_right fun _ ↦ ?_
  cases F.readField key v <;> simp [Except.toOption]

/-! ## Writes -/

/-- A write to one field of a record. -/
inductive FieldWrite where
  /-- Sets the field of a copy. -/
  | set (key : String) (v : Value)
  /-- Sets the field of a copy to its default. -/
  | reset (key : String)
  /-- Sets the field of a draft in place. -/
  | write (key : String) (v : Value)

namespace FieldWrite

/-- The key of the field. -/
def key : FieldWrite → String
  | set key _ | reset key | write key _ => key

/-- The value that the field is set to, undefined for its default. -/
def value : FieldWrite → Value
  | set _ v | write _ v => v
  | reset _ => .undefined

/-- Whether the write needs a draft. -/
def inPlace : FieldWrite → Bool
  | write _ _ => true
  | _ => false

/-- The record after the write. -/
def apply (r : Record) : FieldWrite → Except RecordError Record
  | set key v => r.set key v
  | reset key => r.reset key
  | write key v => r.write key v

/-- The write succeeds on a record of this type and draft flag. -/
def Accepted (w : FieldWrite) (T : RecordType) (draft : Bool) : Prop :=
  (w.inPlace = true → draft = true) ∧ (T.stored? w.key w.value).isSome = true

/-- The value of the last write to a key. -/
def lastValue? (key : String) : List FieldWrite → Option Value
  | [] => none
  | w :: rest => (lastValue? key rest).or (if w.key = key then some w.value else none)

variable {w w' : FieldWrite} {r r' : Record} {key : String}

/-- **All writes are one.** A write replaces the value under its key by what the type stores for the
new value, and the storage. -/
theorem apply_eq_ok_iff :
    w.apply r = .ok r' ↔ (w.inPlace = true → r.draft = true) ∧
      ∃ x, r.type.stored? w.key w.value = some x ∧
        r' = { r with fields := Entries.put r.fields w.key x, storage := none } := by
  have hset (key : String) (v : Value) : r.set key v = .ok r' ↔
      ∃ x, r.type.stored? key v = some x ∧
        r' = { r with fields := Entries.put r.fields key x, storage := none } := by
    rw [Record.set_eq_ok_iff]
    simp only [RecordType.stored?_eq_some_iff]
    constructor
    · rintro ⟨F, x, hF, hx, hr'⟩
      exact ⟨x, ⟨F, hF, hx⟩, hr'⟩
    · rintro ⟨x, ⟨F, hF, hx⟩, hr'⟩
      exact ⟨F, x, hF, hx, hr'⟩
  cases w with
  | set key v =>
    exact (hset key v).trans (and_iff_right fun h ↦ absurd h Bool.false_ne_true).symm
  | reset key =>
    exact (hset key .undefined).trans (and_iff_right fun h ↦ absurd h Bool.false_ne_true).symm
  | write key v =>
    rw [apply, Record.write_eq]
    split
    · rename_i hdraft
      exact (hset key v).trans (and_iff_right fun _ ↦ hdraft).symm
    · rename_i hdraft
      constructor
      · intro h
        cases h
      · exact fun h ↦ absurd (h.1 rfl) hdraft

theorem exists_apply_iff : (∃ r', w.apply r = .ok r') ↔ w.Accepted r.type r.draft := by
  simp only [apply_eq_ok_iff, Accepted, Option.isSome_iff_exists]
  constructor
  · rintro ⟨_, hdraft, x, hx, -⟩
    exact ⟨hdraft, x, hx⟩
  · rintro ⟨hdraft, x, hx⟩
    exact ⟨_, hdraft, x, hx, rfl⟩

/-! ### The last value -/

theorem lastValue?_append (key : String) (ws ws' : List FieldWrite) :
    lastValue? key (ws ++ ws') = (lastValue? key ws').or (lastValue? key ws) := by
  induction ws with
  | nil => rw [List.nil_append, lastValue?, Option.or_none]
  | cons w rest ih => rw [List.cons_append, lastValue?, ih, lastValue?, Option.or_assoc]

/-- Two writes to different keys may change places. -/
theorem lastValue?_swap (h : w.key ≠ w'.key) (key : String) (rest : List FieldWrite) :
    lastValue? key (w :: w' :: rest) = lastValue? key (w' :: w :: rest) := by
  simp only [lastValue?, Option.or_assoc]
  by_cases hw : w.key = key
  · have hw' : w'.key ≠ key := fun hkey ↦ h (hw.trans hkey.symm)
    simp [hw, hw']
  · simp [hw]

theorem lastValue?_ofKeys (f : String → Value) (ks : List String) (key : String) :
    lastValue? key (ks.map fun k ↦ .write k (f k)) = if key ∈ ks then some (f key) else none := by
  induction ks with
  | nil => rfl
  | cons k rest ih =>
    rw [List.map_cons, lastValue?, ih, FieldWrite.key, FieldWrite.value]
    by_cases hrest : key ∈ rest
    · simp [hrest]
    · by_cases hk : k = key
      · simp [hk, hrest]
      · simp [hk, hrest, Ne.symm hk]

end FieldWrite

/-! ## Runs of writes -/

namespace Record

/-- The record after some writes, each with its new records numbered from the supply before the next
one, and the rest of the supply. The first write that fails ends the run. -/
def applyAll (r : Record) (next : Nat) : List FieldWrite → Except RecordError (Record × Nat)
  | [] => .ok (r, next)
  | w :: rest =>
    match w.apply r with
    | .error e => .error e
    | .ok r' => (r'.settle next).1.applyAll (r'.settle next).2 rest

variable {r r' s : Record} {w : FieldWrite} {ws : List FieldWrite} {next : Nat}
  {out : Record × Nat}

theorem applyAll_cons_eq_ok_iff :
    r.applyAll next (w :: ws) = .ok out ↔
      ∃ r', w.apply r = .ok r' ∧ (r'.settle next).1.applyAll (r'.settle next).2 ws = .ok out := by
  rw [applyAll]
  cases w.apply r <;> simp

@[simp] theorem keys_fields_settle (r : Record) (next : Nat) :
    Entries.keys (r.settle next).1.fields = Entries.keys r.fields := by
  rcases r.settle_cases next with h | ⟨-, h⟩
  · rw [h]
  · rw [h, keys_settleEntries]

/-- There are no fresh records in the fields. -/
def Settled (r : Record) : Prop := ∀ key v, r.get? key = some v → ∀ n, v.settle n = (v, n)

theorem exists_get?_settle (hfresh : r.storage = none) (next : Nat) (key : String) :
    ∃ n, next ≤ n ∧ (r.settle next).1.get? key = (r.get? key).map fun v ↦ (v.settle n).1 := by
  obtain ⟨n, hle, hn⟩ := exists_get?_settleEntries r.fields (next + 1) key
  rw [settle_of_fresh hfresh]
  exact ⟨n, Nat.le_of_succ_le hle, hn⟩

theorem settled_settle (hfresh : r.storage = none) (next : Nat) : (r.settle next).1.Settled := by
  intro key v hv m
  obtain ⟨n, -, hn⟩ := exists_get?_settle hfresh next key
  obtain ⟨w, -, rfl⟩ := Option.map_eq_some_iff.mp (hn.symm.trans hv)
  exact w.settle_settle n m

/-! ### One write -/

section

variable (h : w.apply r = .ok r')
include h

theorem type_of_apply : r'.type = r.type := by
  obtain ⟨-, _, -, rfl⟩ := FieldWrite.apply_eq_ok_iff.mp h
  rfl

theorem draft_of_apply : r'.draft = r.draft := by
  obtain ⟨-, _, -, rfl⟩ := FieldWrite.apply_eq_ok_iff.mp h
  rfl

theorem storage_of_apply : r'.storage = none := by
  obtain ⟨-, _, -, rfl⟩ := FieldWrite.apply_eq_ok_iff.mp h
  rfl

theorem exists_get?_settle_of_apply (next : Nat) :
    ∃ x n, r.type.stored? w.key w.value = some x ∧ next ≤ n ∧
      (r'.settle next).1.get? w.key = some (x.settle n).1 := by
  obtain ⟨n, hle, hn⟩ := exists_get?_settle (storage_of_apply h) next w.key
  obtain ⟨-, x, hx, rfl⟩ := FieldWrite.apply_eq_ok_iff.mp h
  refine ⟨x, n, hx, hle, hn.trans ?_⟩
  rw [get?, Entries.get?_put_self, Option.map_some]

/-- Under any other key there is what was there, unless this has to be numbered too. -/
theorem get?_settle_of_apply (hr : r.Settled) {key : String} (hne : w.key ≠ key) (next : Nat) :
    (r'.settle next).1.get? key = r.get? key := by
  obtain ⟨n, -, hn⟩ := exists_get?_settle (storage_of_apply h) next key
  obtain ⟨-, x, -, rfl⟩ := FieldWrite.apply_eq_ok_iff.mp h
  rw [hn, get?, Entries.get?_put, if_neg hne, ← get?]
  cases hv : r.get? key with
  | none => rfl
  | some v => rw [Option.map_some, hr key v hv]

theorem keys_of_apply (hkeys : Entries.keys r.fields = Entries.keys r.type.schema) :
    Entries.keys r'.fields = Entries.keys r.fields := by
  obtain ⟨-, x, hx, rfl⟩ := FieldWrite.apply_eq_ok_iff.mp h
  obtain ⟨F, hF, -⟩ := RecordType.stored?_eq_some_iff.mp hx
  have hmem : w.key ∈ Entries.keys r.fields :=
    hkeys ▸ Entries.get?_isSome_iff.mp (Option.isSome_iff_exists.mpr ⟨F, hF⟩)
  rw [Entries.keys_put, if_pos hmem]

end

/-! ### Many writes -/

/-- **A run succeeds if each of its writes is accepted**, whatever the order. -/
theorem exists_applyAll_iff :
    (∃ out, r.applyAll next ws = .ok out) ↔ ∀ w ∈ ws, w.Accepted r.type r.draft := by
  induction ws generalizing r next with
  | nil => exact iff_of_true ⟨_, rfl⟩ (List.forall_mem_nil _)
  | cons w rest ih =>
    rw [List.forall_mem_cons, ← FieldWrite.exists_apply_iff]
    -- The writes that follow meet a record of the same type and draft flag.
    have hrest {r' : Record} (hr' : w.apply r = .ok r') :
        (∃ out, (r'.settle next).1.applyAll (r'.settle next).2 rest = .ok out) ↔
          ∀ w ∈ rest, w.Accepted r.type r.draft := by
      rw [ih, type_settle, draft_settle, type_of_apply hr', draft_of_apply hr']
    constructor
    · rintro ⟨out, hout⟩
      obtain ⟨r', hr', hout⟩ := applyAll_cons_eq_ok_iff.mp hout
      exact ⟨⟨r', hr'⟩, (hrest hr').mp ⟨out, hout⟩⟩
    · rintro ⟨⟨r', hr'⟩, haccepted⟩
      obtain ⟨out, hout⟩ := (hrest hr').mpr haccepted
      exact ⟨out, applyAll_cons_eq_ok_iff.mpr ⟨r', hr', hout⟩⟩

theorem type_of_applyAll (h : r.applyAll next ws = .ok out) : out.1.type = r.type := by
  induction ws generalizing r next with
  | nil =>
    cases h
    rfl
  | cons w rest ih =>
    obtain ⟨r', hr', h⟩ := applyAll_cons_eq_ok_iff.mp h
    rw [ih h, type_settle, type_of_apply hr']

theorem draft_of_applyAll (h : r.applyAll next ws = .ok out) : out.1.draft = r.draft := by
  induction ws generalizing r next with
  | nil =>
    cases h
    rfl
  | cons w rest ih =>
    obtain ⟨r', hr', h⟩ := applyAll_cons_eq_ok_iff.mp h
    rw [ih h, draft_settle, draft_of_apply hr']

theorem keys_of_applyAll (h : r.applyAll next ws = .ok out)
    (hkeys : Entries.keys r.fields = Entries.keys r.type.schema) :
    Entries.keys out.1.fields = Entries.keys r.type.schema := by
  induction ws generalizing r next with
  | nil =>
    cases h
    exact hkeys
  | cons w rest ih =>
    obtain ⟨r', hr', h⟩ := applyAll_cons_eq_ok_iff.mp h
    have htype : (r'.settle next).1.type = r.type := by rw [type_settle, type_of_apply hr']
    rw [ih h (by rw [keys_fields_settle, keys_of_apply hr' hkeys, htype, hkeys]), htype]

theorem exists_storage_of_applyAll (h : r.applyAll next ws = .ok out) (hws : ws ≠ []) :
    ∃ i, out.1.storage = some i ∧ next ≤ i := by
  induction ws generalizing r next with
  | nil => exact absurd rfl hws
  | cons w rest ih =>
    obtain ⟨r', hr', h⟩ := applyAll_cons_eq_ok_iff.mp h
    cases rest with
    | nil =>
      cases h
      rw [settle_of_fresh (storage_of_apply hr')]
      exact ⟨next, rfl, Nat.le_refl next⟩
    | cons w' rest =>
      obtain ⟨i, hi, hle⟩ := ih h (List.cons_ne_nil w' rest)
      exact ⟨i, hi, Nat.le_trans ((Value.record r').le_settle next) hle⟩

/-- **Where nothing is written nothing changes**, down to the numbers. -/
theorem get?_of_applyAll (hr : r.Settled) (h : r.applyAll next ws = .ok out) {key : String}
    (hlast : FieldWrite.lastValue? key ws = none) : out.1.get? key = r.get? key := by
  induction ws generalizing r next with
  | nil =>
    cases h
    rfl
  | cons w rest ih =>
    obtain ⟨r', hr', h⟩ := applyAll_cons_eq_ok_iff.mp h
    rw [FieldWrite.lastValue?, Option.or_eq_none_iff] at hlast
    obtain ⟨hrest, hw⟩ := hlast
    have hne : w.key ≠ key := by
      rintro rfl
      rw [if_pos rfl] at hw
      cases hw
    rw [ih (settled_settle (storage_of_apply hr') next) h hrest,
      get?_settle_of_apply hr' hr hne next]

/-- **The last write to a key decides** what is under it after a run: what the type stores, with the
numbers that it got when it was written. -/
theorem exists_get?_of_applyAll (h : r.applyAll next ws = .ok out) {key : String} {v : Value}
    (hlast : FieldWrite.lastValue? key ws = some v) :
    ∃ x n, r.type.stored? key v = some x ∧ next ≤ n ∧ out.1.get? key = some (x.settle n).1 := by
  induction ws generalizing r next with
  | nil => cases hlast
  | cons w rest ih =>
    obtain ⟨r', hr', h⟩ := applyAll_cons_eq_ok_iff.mp h
    rw [FieldWrite.lastValue?, Option.or_eq_some_iff] at hlast
    rcases hlast with hrest | ⟨hrest, hw⟩
    · obtain ⟨x, n, hx, hle, hn⟩ := ih h hrest
      rw [type_settle, type_of_apply hr'] at hx
      exact ⟨x, n, hx, Nat.le_trans ((Value.record r').le_settle next) hle, hn⟩
    · split at hw
      · rename_i hkey
        subst hkey
        obtain rfl := Option.some.inj hw
        rw [get?_of_applyAll (settled_settle (storage_of_apply hr') next) h hrest]
        exact exists_get?_settle_of_apply hr' next
      · cases hw

/-- The same in one equation, up to the numbers that were given out on the way. -/
theorem unnumbered_get?_of_applyAll (hr : r.Settled) (h : r.applyAll next ws = .ok out)
    (key : String) :
    (out.1.get? key).map (·.unnumbered next) =
      (((FieldWrite.lastValue? key ws).bind (r.type.stored? key)).or (r.get? key)).map
        (·.unnumbered next) := by
  cases hlast : FieldWrite.lastValue? key ws with
  | none => rw [get?_of_applyAll hr h hlast, Option.bind_none, Option.none_or]
  | some v =>
    obtain ⟨x, n, hx, hle, hn⟩ := exists_get?_of_applyAll h hlast
    rw [hn, Option.bind_some, hx, Option.some_or, Option.map_some, Option.map_some,
      x.unnumbered_settle hle]

theorem fields_unnumbered_eq_of_get? (hkeys : Entries.keys r.fields = Entries.keys s.fields)
    (hnodup : (Entries.keys r.fields).Nodup)
    (hget : ∀ key, (r.get? key).map (·.unnumbered next) = (s.get? key).map (·.unnumbered next)) :
    (r.unnumbered next).fields = (s.unnumbered next).fields := by
  rw [fields_unnumbered, fields_unnumbered]
  refine Entries.eq_of_get? ?_ ?_ fun key ↦ ?_
  · rw [Entries.keys_map, Entries.keys_map, hkeys]
  · rwa [Entries.keys_map]
  · rw [Entries.get?_map, Entries.get?_map]
    exact hget key

end Record

/-! ## Building at once -/

namespace RecordType

variable {T : RecordType} {v : Value} {r : Record}

theorem get?_of_build (h : T.build v = .ok r) (key : String) :
    r.get? key = T.stored? key (v.getD key) := by
  obtain ⟨fields, hfields, rfl⟩ := build_eq_ok_iff.mp h
  cases hF : T.field? key with
  | none =>
    rw [stored?, hF, Option.bind_none, Record.get?, Entries.get?_eq_none_iff,
      keys_of_readFields hfields, ← Entries.get?_eq_none_iff]
    exact hF
  | some F =>
    obtain ⟨x, hx, hget⟩ := get?_readFields hfields hF
    exact hget.trans (stored?_eq_some_iff.mpr ⟨F, hF, hx⟩).symm

/-- A record is built if the type stores something for each of its keys. -/
theorem exists_build_iff (hnodup : (Entries.keys T.schema).Nodup) :
    (∃ r, T.build v = .ok r) ↔
      ∀ key ∈ Entries.keys T.schema, (T.stored? key (v.getD key)).isSome = true := by
  constructor
  · rintro ⟨r, hr⟩ key hkey
    obtain ⟨fields, hfields, rfl⟩ := build_eq_ok_iff.mp hr
    rw [← get?_of_build hr]
    exact Entries.get?_isSome_iff.mpr (keys_of_readFields hfields ▸ hkey)
  · intro hstored
    have hread : ∀ f ∈ T.schema, ∃ x, f.2.readField f.1 (v.getD f.1) = .ok x := by
      intro f hf
      obtain ⟨x, hx⟩ := Option.isSome_iff_exists.mp (hstored f.1 (List.mem_map_of_mem hf))
      obtain ⟨F, hF, hx⟩ := stored?_eq_some_iff.mp hx
      have hself : T.field? f.1 = some f.2 := Entries.get?_eq_some_of_mem hnodup hf
      obtain rfl : f.2 = F := Option.some.inj (hself.symm.trans hF)
      exact ⟨x, hx⟩
    obtain ⟨fields, hfields⟩ := exists_readFields hread
    exact ⟨_, build_eq_ok_iff.mpr ⟨fields, hfields, rfl⟩⟩

end RecordType

/-- Writes in place of what a map has under the keys, undefined where it has nothing. -/
def FieldWrite.fromMap (m : Entries Value) (ks : List String) : List FieldWrite :=
  ks.map fun key ↦ .write key ((Value.map m).getD key)

namespace Record

variable {r : Record} {m : Entries Value} {ks : List String} {ws : List FieldWrite} {next : Nat}

/-- A draft takes the entries of a map, in any order, if a record is built from the map. -/
theorem exists_construct_iff_exists_applyAll (hnodup : (Entries.keys r.type.schema).Nodup)
    (hks : ks.Perm (Entries.keys r.type.schema)) :
    (∃ t, r.type.construct (.map m) = .ok t) ↔
      ∃ out, r.toDraft.applyAll next (FieldWrite.fromMap m ks) = .ok out := by
  rw [exists_applyAll_iff, FieldWrite.fromMap, List.forall_mem_map]
  refine (RecordType.exists_build_iff hnodup).trans ?_
  constructor
  · exact fun h key hkey ↦ ⟨fun _ ↦ rfl, h key (hks.mem_iff.mp hkey)⟩
  · exact fun h key hkey ↦ (h key (hks.mem_iff.mpr hkey)).2

/-- **Writing all fields is building.** -/
theorem fields_unnumbered_eq_of_construct (htyped : r.WellTyped) (hr : r.Settled)
    (hnodup : (Entries.keys r.type.schema).Nodup) (hks : ks.Perm (Entries.keys r.type.schema))
    {t : Record} (ht : r.type.construct (.map m) = .ok t) {out : Record × Nat}
    (hout : r.toDraft.applyAll next (FieldWrite.fromMap m ks) = .ok out) :
    (out.1.unnumbered next).fields = (t.unnumbered next).fields := by
  have hbuild : r.type.build (.map m) = .ok t := ht
  obtain ⟨fields, hfields, rfl⟩ := RecordType.build_eq_ok_iff.mp hbuild
  have hkeys : Entries.keys out.1.fields = Entries.keys r.type.schema :=
    keys_of_applyAll (r := r.toDraft) hout htyped.keys_eq
  refine fields_unnumbered_eq_of_get? (hkeys.trans (keys_of_readFields hfields).symm)
    (hkeys ▸ hnodup) fun key ↦ ?_
  rw [unnumbered_get?_of_applyAll (r := r.toDraft) hr hout, FieldWrite.fromMap,
    FieldWrite.lastValue?_ofKeys, RecordType.get?_of_build hbuild]
  by_cases hkey : key ∈ ks
  · -- Both have what the type stores for the entry of the map.
    have hstored := (RecordType.exists_build_iff hnodup).mp ⟨_, hbuild⟩ key (hks.mem_iff.mp hkey)
    obtain ⟨x, hx⟩ := Option.isSome_iff_exists.mp hstored
    rw [if_pos hkey, Option.bind_some, toDraft, hx, Option.some_or]
  · have hnone : r.type.field? key = none :=
      Entries.get?_eq_none_iff.mpr fun h ↦ hkey (hks.mem_iff.mpr h)
    have hget : r.toDraft.get? key = none :=
      Entries.get?_eq_none_iff.mpr fun h ↦ hkey (hks.mem_iff.mpr (htyped.keys_eq ▸ h))
    rw [if_neg hkey, Option.bind_none, Option.none_or, hget, RecordType.stored?, hnone,
      Option.bind_none]

/-- **The last values decide.** Two runs from one record leave the same if they have the same last
value for each key, up to the numbers that are given out on the way. -/
theorem unnumbered_eq_of_lastValue? (hr : r.Settled)
    (hkeys : Entries.keys r.fields = Entries.keys r.type.schema)
    (hnodup : (Entries.keys r.type.schema).Nodup) {ws' : List FieldWrite} {out out' : Record × Nat}
    (h : r.applyAll next ws = .ok out) (h' : r.applyAll next ws' = .ok out') (hws : ws ≠ [])
    (hws' : ws' ≠ [])
    (hlast : ∀ key, FieldWrite.lastValue? key ws = FieldWrite.lastValue? key ws') :
    out.1.unnumbered next = out'.1.unnumbered next := by
  have hkeys' := keys_of_applyAll h hkeys
  have hfields : (out.1.unnumbered next).fields = (out'.1.unnumbered next).fields := by
    refine fields_unnumbered_eq_of_get? (hkeys'.trans (keys_of_applyAll h' hkeys).symm)
      (hkeys' ▸ hnodup) fun key ↦ ?_
    rw [unnumbered_get?_of_applyAll hr h, unnumbered_get?_of_applyAll hr h', hlast key]
  have hstorage {ws : List FieldWrite} {out : Record × Nat} (h : r.applyAll next ws = .ok out)
      (hws : ws ≠ []) : (out.1.unnumbered next).storage = none := by
    obtain ⟨i, hi, hle⟩ := exists_storage_of_applyAll h hws
    simp [hi, hle]
  refine Record.ext ?_ ((hstorage h hws).trans (hstorage h' hws').symm) hfields ?_
  · rw [type_unnumbered, type_unnumbered, type_of_applyAll h, type_of_applyAll h']
  · rw [draft_unnumbered, draft_unnumbered, draft_of_applyAll h, draft_of_applyAll h']

theorem settled_of_reachable (hr : Session.Reachable (.record r)) : r.Settled := by
  obtain ⟨σ, hσ⟩ := Session.exists_stored_of_reachable hr
  exact fun key v hv ↦ Value.settle_of_stored (throughout_of_get? (throughout_of_record hσ) hv)

end Record

/-- **Writing field by field and building at once agree.** Let `r` be a record that a session can
hold, and let numbers be given out from `next` on.

* Its type builds a record from a map exactly if a draft of `r` takes, for each key of the type and
  in whatever order, a write of what the map has under the key. Both records are then of the type,
  and they have its keys, in its order, and the same values but for the numbers that were given out.
* After any writes that succeed, the record has its type, its draft flag and the keys of its type.
  Under a key that was written there is what the type stores for the last value written to it, and
  under any other key the very value that was there.
* Two writes to different keys may change places, wherever they stand among other writes: this
  decides neither whether the writes succeed nor, but for the numbers that are given out, what they
  leave. -/
theorem writes_agree_with_construct {r : Record} (hr : Session.Reachable (.record r)) :
    (∀ (m : Entries Value) (ks : List String) (next : Nat),
      ks.Perm (Entries.keys r.type.schema) →
        ((∃ t, r.type.construct (.map m) = .ok t) ↔
          ∃ out, r.toDraft.applyAll next (FieldWrite.fromMap m ks) = .ok out) ∧
        ∀ t out, r.type.construct (.map m) = .ok t →
          r.toDraft.applyAll next (FieldWrite.fromMap m ks) = .ok out →
            out.1.type = r.type ∧ t.type = r.type ∧
              Entries.keys out.1.fields = Entries.keys r.type.schema ∧
              Entries.keys t.fields = Entries.keys r.type.schema ∧
              ∀ n, next ≤ n →
                (out.1.unnumbered next).fields = ((t.settle n).1.unnumbered next).fields) ∧
    (∀ ws next out, r.applyAll next ws = .ok out →
      out.1.type = r.type ∧ out.1.draft = r.draft ∧
        Entries.keys out.1.fields = Entries.keys r.type.schema ∧
        ∀ key, (FieldWrite.lastValue? key ws = none → out.1.get? key = r.get? key) ∧
          ∀ v, FieldWrite.lastValue? key ws = some v → ∃ x n, r.type.stored? key v = some x ∧
            next ≤ n ∧ out.1.get? key = some (x.settle n).1) ∧
    ∀ (before after : List FieldWrite) (w w' : FieldWrite) (next : Nat), w.key ≠ w'.key →
      ((∃ out, r.applyAll next (before ++ w :: w' :: after) = .ok out) ↔
        ∃ out, r.applyAll next (before ++ w' :: w :: after) = .ok out) ∧
      ∀ out out', r.applyAll next (before ++ w :: w' :: after) = .ok out →
        r.applyAll next (before ++ w' :: w :: after) = .ok out' →
          out.1.unnumbered next = out'.1.unnumbered next := by
  obtain ⟨htyped, hnodup⟩ := Session.wellTyped_of_reachable hr
  have hsettled := Record.settled_of_reachable hr
  refine ⟨fun m ks next hks ↦ ⟨?_, ?_⟩, fun ws next out hout ↦ ⟨?_, ?_, ?_, fun key ↦ ⟨?_, ?_⟩⟩,
    fun before after w w' next hne ↦ ⟨?_, ?_⟩⟩
  · exact Record.exists_construct_iff_exists_applyAll hnodup hks
  · intro t out ht hout
    refine ⟨Record.type_of_applyAll (r := r.toDraft) hout, RecordType.type_of_construct ht,
      Record.keys_of_applyAll (r := r.toDraft) hout htyped.keys_eq, ?_, fun n hle ↦ ?_⟩
    · obtain ⟨fields, hfields, rfl⟩ :=
        RecordType.build_eq_ok_iff.mp (RecordType.construct_eq_ok_iff.mp ht).2
      exact keys_of_readFields hfields
    · rw [t.unnumbered_settle hle]
      exact Record.fields_unnumbered_eq_of_construct htyped hsettled hnodup hks ht hout
  · exact Record.type_of_applyAll hout
  · exact Record.draft_of_applyAll hout
  · exact Record.keys_of_applyAll hout htyped.keys_eq
  · exact Record.get?_of_applyAll hsettled hout
  · exact fun v ↦ Record.exists_get?_of_applyAll hout
  · have hswap : (before ++ w :: w' :: after).Perm (before ++ w' :: w :: after) :=
      (List.Perm.swap w' w after).append_left before
    rw [Record.exists_applyAll_iff, Record.exists_applyAll_iff]
    exact forall_congr' fun w ↦ by rw [hswap.mem_iff]
  · intro out out' hout hout'
    refine Record.unnumbered_eq_of_lastValue? hsettled htyped.keys_eq hnodup hout hout'
      (by simp) (by simp) fun key ↦ ?_
    rw [FieldWrite.lastValue?_append, FieldWrite.lastValue?_append,
      FieldWrite.lastValue?_swap hne]

/-! ## A drawing drawn again -/

namespace Session

/-- A title and a filled circle for a drawing. -/
def filledCircle : Entries Value :=
  [("title", .str "sun"), ("shape", .map [("filled", .bool true), ("kind", .str "circle")])]

/-- The fields of a drawing may be written in the opposite order. Giving it a title first and then
resetting the title comes to nothing, and leaves it the very circle that it has. -/
theorem writes_agree_with_construct_drawing :
    (∃ t out, drawingType.construct (.map filledCircle) = .ok t ∧
      drawing.toDraft.applyAll 4 (FieldWrite.fromMap filledCircle ["shape", "title"]) = .ok out ∧
      Entries.keys out.1.fields = ["title", "shape"] ∧
      (out.1.unnumbered 4).fields = ((t.settle 4).1.unnumbered 4).fields) ∧
    (∃ out, drawing.applyAll 4 [.set "title" (.str "sun"), .reset "title"] = .ok out ∧
      out.1.get? "title" = some .undefined ∧ out.1.get? "shape" = some (.record circle)) ∧
    ∃ out out', drawing.applyAll 4 [.set "title" .null, .set "shape" (.record circle)] = .ok out ∧
      drawing.applyAll 4 [.set "shape" (.record circle), .set "title" .null] = .ok out' ∧
        out.1.unnumbered 4 = out'.1.unnumbered 4 := by
  obtain ⟨hbulk, hlast, hcommute⟩ :=
    writes_agree_with_construct (reachable_of_record record_drawing)
  refine ⟨?_, ?_, ?_⟩
  · obtain ⟨hiff, hequal⟩ := hbulk filledCircle ["shape", "title"] 4 (by decide)
    obtain ⟨t, ht⟩ : ∃ t, drawingType.construct (.map filledCircle) = .ok t := ⟨_, rfl⟩
    obtain ⟨out, hout⟩ := hiff.mp ⟨t, ht⟩
    obtain ⟨-, -, hkeys, -, hfields⟩ := hequal t out ht hout
    exact ⟨t, out, ht, hout, hkeys, hfields 4 (Nat.le_refl 4)⟩
  · obtain ⟨out, hout⟩ : ∃ out,
      drawing.applyAll 4 [.set "title" (.str "sun"), .reset "title"] = .ok out := ⟨_, rfl⟩
    obtain ⟨-, -, -, hget⟩ := hlast _ _ _ hout
    obtain ⟨x, n, hx, -, htitle⟩ := (hget "title").2 .undefined rfl
    obtain rfl : Value.undefined = x := Option.some.inj hx
    exact ⟨out, hout, htitle, (hget "shape").1 rfl⟩
  · obtain ⟨hiff, hequal⟩ :=
      hcommute [] [] (.set "title" .null) (.set "shape" (.record circle)) 4 (by decide)
    obtain ⟨out, hout⟩ : ∃ out,
      drawing.applyAll 4 [.set "title" .null, .set "shape" (.record circle)] = .ok out := ⟨_, rfl⟩
    obtain ⟨out', hout'⟩ := hiff.mp ⟨out, hout⟩
    exact ⟨out, out', hout, hout', hequal out out' hout hout'⟩

end Session

end Schemata
