import Schemata.Proofs.Rereading
import Schemata.Proofs.Sharing

/-!
# Building at a type above

A type that is derived from another one by labels and new fields alone has the schema of that type
as the first part of its own (`RecordType.ExtendedBy.exists_schema_eq`). A schema is read field by
field, and the first failure is the result. So a value that the upper type refuses is refused by the
lower one with the same error, and what the lower type builds begins with what the upper one builds.

Going up loses nothing: built at the upper type, a record of the lower type gives its own values
(`Record.restrict`), nested records included as they are.
-/

namespace Schemata

/-- `S` is reached from `T` by deriving types with another label or with further fields, none of
which declares a field anew. -/
inductive RecordType.ExtendedBy (T : RecordType) : RecordType → Prop where
  | refl : T.ExtendedBy T
  | relabelled {S : RecordType} {id : Nat} {label : String} : T.ExtendedBy S →
    T.ExtendedBy (S.relabelled id label)
  | extend {S S' : RecordType} {id : Nat} {fields : Entries FieldSpec} {label : Option String} :
    T.ExtendedBy S → (∀ key ∈ Entries.keys fields, S.field? key = none) →
      S.extend id fields label = .ok S' → T.ExtendedBy S'

/-- What a record holds under the keys of a type, in the order of the type. -/
def Record.restrict (s : Record) (T : RecordType) : Entries Value :=
  (Entries.keys T.schema).map fun key ↦ (key, s.getD key)

variable {T S : RecordType} {v : Value}

theorem RecordType.ExtendedBy.exists_schema_eq (h : T.ExtendedBy S) :
    ∃ added, S.schema = T.schema ++ added := by
  induction h with
  | refl => exact ⟨[], (List.append_nil _).symm⟩
  | relabelled _ ih => exact ih
  | @extend S S' id fields label _ hnew hS' ih =>
    obtain ⟨added, hadded⟩ := ih
    obtain ⟨-, more, hmore, rfl⟩ := extend_eq_ok_iff.mp hS'
    refine ⟨Entries.putAll added more, ?_⟩
    rw [derived, hadded]
    refine Entries.putAll_append (fun key hkey hT ↦ ?_) added
    -- A key of the upper type is one of every type below it.
    rw [keys_of_resolveFields hmore] at hkey
    have hnone := Entries.get?_eq_none_iff.mp (hnew key hkey)
    rw [hadded, Entries.keys, List.map_append, List.mem_append] at hnone
    exact hnone (Or.inl hT)

theorem readFields_append (xs ys : List (String × FieldType)) (v : Value) :
    readFields (xs ++ ys) v =
      match readFields xs v with
      | .error e => .error e
      | .ok fields => (readFields ys v).map (fields ++ ·) := by
  induction xs with
  | nil => cases h : readFields ys v <;> simp [h, Except.map]
  | cons x rest ih =>
    obtain ⟨key, F⟩ := x
    rw [List.cons_append, readFields_cons, readFields_cons, ih]
    cases F.readField key (v.getD key) with
    | error e => rfl
    | ok x => cases readFields rest v <;> cases readFields ys v <;> rfl

/-- A dictionary is what a longer one holds under its keys. -/
theorem Record.restrict_eq {s : Record} {fields more : Entries Value}
    (hs : s.fields = fields ++ more) (hkeys : Entries.keys fields = Entries.keys T.schema)
    (hnodup : (Entries.keys T.schema).Nodup) : s.restrict T = fields := by
  rw [restrict, ← hkeys, Entries.keys, List.map_map]
  rw [← hkeys] at hnodup
  refine (List.map_congr_left fun e he ↦ ?_).trans (List.map_id fields)
  have hget : Entries.get? fields e.1 = some e.2 := Entries.get?_eq_some_of_mem hnodup he
  rw [Function.comp, getD, get?, hs, Entries.get?_append, hget]
  rfl

/-- What a type refuses, a type whose schema begins with the same fields refuses too, for the same
reason. -/
theorem RecordType.build_eq_error {added : List (String × FieldType)} {e : RecordError}
    (hS : S.schema = T.schema ++ added) (h : T.build v = .error e) : S.build v = .error e := by
  rw [build] at h ⊢
  rw [hS, readFields_append]
  cases hfields : readFields T.schema v with
  | error e' =>
    rw [hfields] at h
    obtain rfl : e' = e := Except.error.inj h
    rfl
  | ok fields =>
    rw [hfields] at h
    cases h

/-- What a type builds begins with what a type with the first fields of its schema builds. -/
theorem RecordType.exists_build_eq {added : List (String × FieldType)} {s : Record}
    (hS : S.schema = T.schema ++ added) (h : S.build v = .ok s) :
    ∃ t more, T.build v = .ok t ∧ s.fields = t.fields ++ more ∧
      Entries.keys t.fields = Entries.keys T.schema := by
  obtain ⟨all, hall, rfl⟩ := build_eq_ok_iff.mp h
  rw [hS, readFields_append] at hall
  cases hfields : readFields T.schema v with
  | error e =>
    rw [hfields] at hall
    cases hall
  | ok fields =>
    rw [hfields] at hall
    obtain ⟨more, -, rfl⟩ := map_eq_ok_iff.mp hall
    exact ⟨⟨T, none, fields, false⟩, more, build_eq_ok_iff.mpr ⟨fields, hfields, rfl⟩, rfl,
      keys_of_readFields hfields⟩

theorem Record.restrict_contents (s : Record) (T : RecordType) :
    s.contents.restrict T = contentsEntries (s.restrict T) := by
  rw [contentsEntries_eq_map, restrict, restrict, List.map_map]
  refine List.map_congr_left fun key _ ↦ ?_
  rw [Function.comp, getD, getD, get?, fields_contents, get?_contentsEntries, ← get?]
  cases s.get? key <;> rfl

theorem Record.fields_settle_of_restrict {σ : Store} {s t : Record}
    (hs : (Part.record s).Throughout (Part.Stored σ)) (ht : t.fields = s.restrict T) (next : Nat) :
    (t.settle next).1.fields = s.restrict T := by
  have hfields : ∀ e ∈ t.fields, ∀ n, e.2.settle n = (e.2, n) := by
    intro e he n
    rw [ht] at he
    obtain ⟨key, -, rfl⟩ := List.mem_map.mp he
    exact Value.settle_of_stored (throughout_getD (throughout_of_record hs) key) n
  rcases t.settle_cases next with hr | ⟨-, hr⟩
  · rw [hr, ht]
  · rw [hr, settleEntries_eq_self hfields, ht]

/-- Where a type builds a record, a type with the first fields of its schema builds one too, with
what is under its own keys in the other. -/
theorem RecordType.exists_construct_eq_restrict {added : List (String × FieldType)} {s : Record}
    (hS : S.schema = T.schema ++ added) (hnodup : (Entries.keys T.schema).Nodup)
    (hv : v.isNullish = true ∨ v.entries?.isSome = true ∨ v.record?.isSome = true)
    (hs : S.build v = .ok s) : ∃ t, T.construct v = .ok t ∧ t.fields = s.restrict T := by
  obtain ⟨t, more, ht, hfields, hkeys⟩ := exists_build_eq hS hs
  exact ⟨t, construct_eq_ok_iff.mpr ⟨hv, ht⟩, (Record.restrict_eq hfields hkeys hnodup).symm⟩

theorem RecordType.construct_eq_build (T : RecordType)
    (hv : v.isNullish = true ∨ v.entries?.isSome = true ∨ v.record?.isSome = true) :
    T.construct v = T.build v := by
  cases v with
  | undefined | null | map | record => rfl
  | _ => simp [Value.isNullish, Value.entries?, Value.record?] at hv

theorem Record.build_self_of_reachable {s : Record} (hs : Session.Reachable (.record s))
    (hdefaults : ∀ f ∈ s.type.schema, f.2.NoTagDefault) :
    s.type.build (.record s) = .ok ⟨s.type, none, s.fields, false⟩ := by
  obtain ⟨_, known, -, hsound⟩ := Session.exists_sound_of_reachable hs
  obtain ⟨htyped, htype, -⟩ := Part.sound_record.mp hsound
  have htags := (Part.throughout_record.mp (Session.tagDeclared_of_reachable hs)).2.1
  have hstrict : ∀ f ∈ s.type.schema, f.2.TagStrict := by
    intro f hf
    exact FieldType.tagStrict_of_noTagDefault ((Part.throughout_recordType.mp htags).2.1 f hf)
      (hdefaults f hf)
  have hself := htyped.readFields_eq (Part.sound_recordType.mp htype).1.2 hstrict
  exact RecordType.build_eq_ok_iff.mpr ⟨s.fields, hself, rfl⟩

/-- **Going up loses nothing.** Let `S` be reached from `T` by labels and new fields alone. A map, a
record or nothing at all that `T` refuses is refused by `S` with the same error. Where `S` builds a
record, `T` builds one with the contents that this has under the keys of `T`, in the order of `T`;
the two are even equal there until each call numbers the records it made. And a reachable record of
type `S`, whose unions give no default to their tags, is built at `T` from its own values, of which
each nested record is the very same one. -/
theorem construct_upcast (h : T.ExtendedBy S) (hT : Session.Reachable (.recordType T)) :
    (∀ v : Value, (v.isNullish = true ∨ v.entries?.isSome = true ∨ v.record?.isSome = true) →
      (∀ e, T.construct v = .error e → S.construct v = .error e) ∧
        ∀ s, S.construct v = .ok s → ∃ t, T.construct v = .ok t ∧ t.fields = s.restrict T ∧
          ∀ n m, (t.settle n).1.contents.fields = (s.settle m).1.contents.restrict T) ∧
    ∀ s : Record, Session.Reachable (.record s) → s.type = S →
      (∀ f ∈ S.schema, f.2.NoTagDefault) →
        ∃ t, T.construct (.record s) = .ok t ∧
          t.fields = s.restrict T ∧ ∀ n, (t.settle n).1.fields = s.restrict T := by
  obtain ⟨added, hS⟩ := h.exists_schema_eq
  obtain ⟨_, known, -, hsound⟩ := Session.exists_sound_of_reachable hT
  have hnodup := (Part.sound_recordType.mp hsound).1.2
  constructor
  · intro v hv
    refine ⟨fun e he ↦ ?_, fun s hs ↦ ?_⟩
    · rw [RecordType.construct_eq_build _ hv] at he ⊢
      exact RecordType.build_eq_error hS he
    · rw [RecordType.construct_eq_build _ hv] at hs
      obtain ⟨t, ht, hfields⟩ := RecordType.exists_construct_eq_restrict hS hnodup hv hs
      refine ⟨t, ht, hfields, fun n m ↦ ?_⟩
      rw [Record.contents_settle, Record.contents_settle, Record.fields_contents, hfields,
        Record.restrict_contents]
  · rintro s hs rfl hdefaults
    -- The record is built at its own type from its own values, and this goes up.
    have hself := Record.build_self_of_reachable hs hdefaults
    obtain ⟨t, ht, hfields⟩ :=
      RecordType.exists_construct_eq_restrict hS hnodup (Or.inr (Or.inr rfl)) hself
    obtain ⟨σ, hσ⟩ := Session.exists_stored_of_reachable hs
    exact ⟨t, ht, hfields, Record.fields_settle_of_restrict hσ hfields⟩

/-! ## A disc as a shape -/

namespace Session

/-- A shape at a point, discs as a labelled kind of it with a further field, and a disc. -/
def discSteps : List Step :=
  [⟨.declare [("name", .str)] (some "Point"), some "Point"⟩,
   ⟨.declare [("at", .recordType "Point")] (some "Shape"), some "Shape"⟩,
   ⟨.relabel "Shape" "Round", some "Round"⟩,
   ⟨.extend "Round" [("filled", .literal (.bool false))] (some "Disc"), some "Disc"⟩,
   ⟨.construct "Disc" (.map [("at", .map [("name", .str "here")])]), some "disc"⟩]

def pointType : RecordType :=
  ⟨0, some "Point", [("name", .str none)], none, [("name", .field "name")]⟩

def shapeType : RecordType :=
  ⟨1, some "Shape", [("at", .record pointType none)], none, [("at", .field "at")]⟩

def discType : RecordType :=
  ⟨3, some "Disc", [("at", .record pointType none), ("filled", .bool (some false))],
    some (shapeType.relabelled 2 "Round"), [("filled", .draftOnly "filled")]⟩

def point : Record := ⟨pointType, some 5, [("name", .str "here")], false⟩

def disc : Record := ⟨discType, some 4, [("at", .record point), ("filled", .bool false)], false⟩

theorem extendedBy_disc : shapeType.ExtendedBy discType := by
  have hnew : ∀ key ∈ Entries.keys [("filled", FieldSpec.literal (.bool false))],
      (shapeType.relabelled 2 "Round").field? key = none := by
    intro key hkey
    rw [List.mem_singleton.mp hkey]
    rfl
  exact .extend (.relabelled .refl) hnew rfl

/-- A disc goes up with the point that it has, and where there is no point neither type builds. -/
theorem construct_upcast_disc :
    (∃ e, shapeType.construct .undefined = .error e ∧ discType.construct .undefined = .error e) ∧
      (∃ s t, discType.construct (.record disc) = .ok s ∧
        shapeType.construct (.record disc) = .ok t ∧ t.fields = s.restrict shapeType) ∧
        ∃ t, shapeType.construct (.record disc) = .ok t ∧
          ∀ n, (t.settle n).1.fields = [("at", .record point)] := by
  have htype : (script discSteps).type "Shape" = .ok shapeType := rfl
  have hrecord : (script discSteps).record "disc" = .ok disc := rfl
  have hdefaults : ∀ f ∈ discType.schema, f.2.NoTagDefault :=
    List.forall_mem_cons.mpr ⟨trivial, List.forall_mem_singleton.mpr trivial⟩
  obtain ⟨hsource, hupcast⟩ := construct_upcast extendedBy_disc (reachable_of_type htype)
  refine ⟨?_, ?_, ?_⟩
  · obtain ⟨e, he⟩ : ∃ e, shapeType.construct .undefined = .error e := ⟨_, rfl⟩
    exact ⟨e, he, (hsource .undefined (Or.inl rfl)).1 e he⟩
  · obtain ⟨s, hs⟩ : ∃ s, discType.construct (.record disc) = .ok s := ⟨_, rfl⟩
    obtain ⟨t, ht, hfields, -⟩ := (hsource (.record disc) (Or.inr (Or.inr rfl))).2 s hs
    exact ⟨s, t, hs, ht, hfields⟩
  · obtain ⟨t, ht, -, hfields⟩ := hupcast disc (reachable_of_record hrecord) rfl hdefaults
    exact ⟨t, ht, hfields⟩

end Session

end Schemata
