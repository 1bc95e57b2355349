import Schemata.Proofs.Declarations
import Schemata.Proofs.Steps

/-!
# What commands preserve

A session holds what its commands made from what it held before. So a property that holds throughout
everything bound in a session (`Session.Everywhere`) passes to whatever a command makes: terms are
evaluated to parts with the property, and a command puts these together by the operations that keep
it. A command that declares or describes a type builds no record on the way, except for the default
of an optional, so this much is true of every compositional property
(`Session.Everywhere.of_describes_cases`). A command that yields or rewrites a value needs an
invariant.
-/

namespace Schemata

namespace Session

variable {ok : Part → Prop} {s : Session}

/-- The property holds throughout everything that the session binds a name to. -/
structure Everywhere (ok : Part → Prop) (s : Session) : Prop where
  types : ∀ e ∈ s.types, (Part.recordType e.2).Throughout ok
  fieldTypes : ∀ e ∈ s.fieldTypes, (Part.fieldType e.2).Throughout ok
  values : ∀ e ∈ s.values, (Part.value e.2).Throughout ok

theorem everywhere_empty : empty.Everywhere ok :=
  ⟨List.forall_mem_nil _, List.forall_mem_nil _, List.forall_mem_nil _⟩

theorem Everywhere.imp {ok' : Part → Prop} (hs : s.Everywhere ok)
    (himp : ∀ p : Part, p.Throughout ok → p.Throughout ok') : s.Everywhere ok' where
  types e he := himp _ (hs.types e he)
  fieldTypes e he := himp _ (hs.fieldTypes e he)
  values e he := himp _ (hs.values e he)

/-! ## Names -/

theorem mem_of_find {α : Type} {table : Entries α} {name : String} {x : α}
    (h : find table name = .ok x) : (name, x) ∈ table := by
  rw [find] at h
  split at h
  · obtain rfl := Except.ok.inj h
    exact Entries.mem_of_get?_eq_some (by assumption)
  · cases h

theorem Everywhere.of_type (hs : s.Everywhere ok) {name : String} {T : RecordType}
    (h : s.type name = .ok T) : (Part.recordType T).Throughout ok :=
  hs.types _ (mem_of_find h)

theorem Everywhere.of_value (hs : s.Everywhere ok) {name : String} {v : Value}
    (h : s.value name = .ok v) : (Part.value v).Throughout ok :=
  hs.values _ (mem_of_find h)

theorem Everywhere.of_record (hs : s.Everywhere ok) {name : String} {r : Record}
    (h : s.record name = .ok r) : (Part.record r).Throughout ok :=
  (Part.throughout_value_record.mp (hs.of_value (value_of_record h))).2

/-! ## Terms -/

mutual

/-- **Terms evaluate to what is bound**, or to lists and maps of it. -/
theorem Everywhere.of_eval [Part.Compositional ok] (hs : s.Everywhere ok) :
    ∀ (t : Term) {v : Value}, s.eval t = .ok v → (Part.value v).Throughout ok
  | .undefined, _, h | .null, _, h | .bool _, _, h | .num _, _, h | .str _, _, h => by
    cases h
    exact throughout_of_flat rfl
  | .list items, _, h => by
    obtain ⟨vs, hvs, rfl⟩ := map_eq_ok_iff.mp h
    exact throughout_of_items (Everywhere.of_evalItems hs items hvs)
  | .map entries, _, h => by
    obtain ⟨es, hes, rfl⟩ := map_eq_ok_iff.mp h
    exact throughout_of_entries (Entries.nodup_keys_ofList es) fun e he ↦
      Everywhere.of_evalEntries hs entries hes e (Entries.mem_ofList he)
  | .name _, _, h => hs.of_value h
termination_by structural t => t

theorem Everywhere.of_evalItems [Part.Compositional ok] (hs : s.Everywhere ok) :
    ∀ (ts : List Term) {vs : List Value}, s.evalItems ts = .ok vs →
      ∀ v ∈ vs, (Part.value v).Throughout ok
  | [], _, h => by
    cases h
    exact List.forall_mem_nil _
  | t :: rest, _, h => by
    rw [evalItems] at h
    split at h
    · cases h
    · obtain ⟨vs, hvs, rfl⟩ := map_eq_ok_iff.mp h
      exact List.forall_mem_cons.mpr
        ⟨Everywhere.of_eval hs t (by assumption), Everywhere.of_evalItems hs rest hvs⟩
termination_by structural ts => ts

theorem Everywhere.of_evalEntries [Part.Compositional ok] (hs : s.Everywhere ok) :
    ∀ (ts : List (String × Term)) {es : List (String × Value)}, s.evalEntries ts = .ok es →
      ∀ e ∈ es, (Part.value e.2).Throughout ok
  | [], _, h => by
    cases h
    exact List.forall_mem_nil _
  | (key, t) :: rest, _, h => by
    rw [evalEntries] at h
    split at h
    · cases h
    · obtain ⟨es, hes, rfl⟩ := map_eq_ok_iff.mp h
      exact List.forall_mem_cons.mpr
        ⟨Everywhere.of_eval hs t (by assumption), Everywhere.of_evalEntries hs rest hes⟩
termination_by structural ts => ts

end

mutual

/-- A JSON value holds nothing but lists, and maps from which repeated keys are gone. -/
theorem throughout_toValue [Part.Compositional ok] :
    ∀ j : Json, (Part.value j.toValue).Throughout ok
  | .null | .bool _ | .number _ | .string _ => throughout_of_flat rfl
  | .array items => throughout_of_items (throughout_itemsToValues items)
  | .object entries => throughout_of_entries (Entries.nodup_keys_ofList _) fun e he ↦
      throughout_entriesToValues entries e (Entries.mem_ofList he)
termination_by structural j => j

theorem throughout_itemsToValues [Part.Compositional ok] :
    ∀ items : List Json, ∀ v ∈ Json.itemsToValues items, (Part.value v).Throughout ok
  | [] => List.forall_mem_nil _
  | j :: rest => List.forall_mem_cons.mpr ⟨throughout_toValue j, throughout_itemsToValues rest⟩
termination_by structural items => items

theorem throughout_entriesToValues [Part.Compositional ok] : ∀ entries : List (String × Json),
    ∀ e ∈ Json.entriesToValues entries, (Part.value e.2).Throughout ok
  | [] => List.forall_mem_nil _
  | (_, j) :: rest =>
    List.forall_mem_cons.mpr ⟨throughout_toValue j, throughout_entriesToValues rest⟩
termination_by structural entries => entries

end

/-! ## Specs -/

section

variable [Part.Compositional ok]

theorem Everywhere.of_evalSpec (hs : s.Everywhere ok) {t : SpecTerm} {spec : FieldSpec}
    (h : s.evalSpec t = .ok spec) : spec.part.Throughout ok := by
  cases t with
  | any | bool | num | str =>
    obtain rfl := Except.ok.inj h
    exact throughout_of_direct_eq_nil trivial rfl
  | literal t =>
    obtain ⟨v, hv, rfl⟩ := map_eq_ok_iff.mp h
    exact hs.of_eval t hv
  | recordType name =>
    obtain ⟨T, hT, rfl⟩ := map_eq_ok_iff.mp h
    exact Part.throughout_fieldType_record.mpr
      ⟨Part.Compositional.fieldType trivial, hs.of_type hT, fun _ hr ↦ nomatch hr⟩
  | fieldType name =>
    obtain ⟨F, hF, rfl⟩ := map_eq_ok_iff.mp h
    exact hs.fieldTypes _ (mem_of_find hF)

theorem Everywhere.of_evalSpecs (hs : s.Everywhere ok) {ts : List (String × SpecTerm)}
    {es : List (String × FieldSpec)} (h : s.evalSpecs ts = .ok es) :
    ∀ e ∈ es, e.2.part.Throughout ok := by
  induction ts generalizing es with
  | nil =>
    cases h
    exact List.forall_mem_nil _
  | cons t rest ih =>
    obtain ⟨key, t⟩ := t
    rw [evalSpecs] at h
    split at h
    · cases h
    · obtain ⟨more, hmore, rfl⟩ := map_eq_ok_iff.mp h
      exact List.forall_mem_cons.mpr ⟨hs.of_evalSpec (by assumption), ih hmore⟩

theorem Everywhere.of_evalFields (hs : s.Everywhere ok) {ts : List (String × SpecTerm)}
    {es : Entries FieldSpec} (h : s.evalFields ts = .ok es) :
    ∀ e ∈ es, e.2.part.Throughout ok := by
  obtain ⟨specs, hspecs, rfl⟩ := map_eq_ok_iff.mp h
  exact fun e he ↦ hs.of_evalSpecs hspecs e (Entries.mem_ofList he)

omit [Part.Compositional ok] in
theorem nodup_keys_of_evalFields {ts : List (String × SpecTerm)} {es : Entries FieldSpec}
    (h : s.evalFields ts = .ok es) : (Entries.keys es).Nodup := by
  obtain ⟨specs, -, rfl⟩ := map_eq_ok_iff.mp h
  exact Entries.nodup_keys_ofList specs

theorem Everywhere.of_evalType? (hs : s.Everywhere ok) {t : SpecTerm} {F : FieldType}
    (h : s.evalType? t = .ok (some F)) : (Part.fieldType F).Throughout ok := by
  obtain ⟨spec, hspec, hF⟩ := map_eq_ok_iff.mp h
  exact throughout_of_resolve (hs.of_evalSpec hspec) hF

end

/-! ## Types -/

variable {c : Command}

theorem id_of_declares {T : RecordType} (h : s.Declares c T) : T.id = s.supply := by
  cases h with
  | declare _ hT => exact RecordType.id_of_declare hT
  | extend _ _ hT => exact RecordType.id_of_extend hT
  | extendSpec _ _ hT => exact RecordType.id_of_extendSpec hT
  | relabel | derive => rfl

section

variable [Part.Compositional ok]

theorem Everywhere.of_declares {T : RecordType} (hs : s.Everywhere ok) (h : s.Declares c T)
    (hT : ok (.recordType T)) : (Part.recordType T).Throughout ok := by
  cases h with
  | declare hes h => exact throughout_of_declare (hs.of_evalFields hes) h hT
  | extend hbase hes h =>
    exact throughout_of_extend (hs.of_type hbase) (hs.of_evalFields hes) h hT
  | extendSpec hspec hes h =>
    obtain ⟨base, hbase, h⟩ := RecordType.exists_extend_of_extendSpec h
    have hbase := throughout_of_recordType? (hs.of_evalSpec hspec) hbase
    exact throughout_of_extend hbase (hs.of_evalFields hes) h hT
  | relabel hbase => exact throughout_relabelled (hs.of_type hbase) hT
  | derive hbase hes hschema =>
    have hfields := throughout_of_resolveFields (hs.of_evalFields hes) hschema
    exact throughout_derived (hs.of_type hbase) hfields hT

/-- A field type that a command describes is made of what is bound, unless it is an optional, whose
default had to be read. -/
theorem Everywhere.of_describes_cases {F : FieldType} (hs : s.Everywhere ok)
    (h : s.Describes c F) : (Part.fieldType F).Throughout ok ∨
      ∃ spec d, spec.part.Throughout ok ∧ (Part.value d).Throughout ok ∧
        FieldType.optionalOf spec d = .ok F := by
  cases h with
  | resolve hF => exact Or.inl (hs.of_evalType? hF)
  | optionalOf hinner hd hF =>
    exact Or.inr ⟨_, _, hs.of_evalSpec hinner, hs.of_eval _ hd, hF⟩
  | enumOf hmembers hd hF =>
    exact Or.inl (throughout_of_enumOf (hs.of_evalItems _ hmembers) (hs.of_eval _ hd) hF)
  | enumOfList hmembers hd hF =>
    exact Or.inl (throughout_of_enumOfList (hs.of_eval _ hmembers) (hs.of_eval _ hd) hF)
  | @unionOf _ _ _ t _ _ hbranches hfallback hF =>
    refine Or.inl (throughout_of_unionOf (hs.of_evalSpecs hbranches) ?_ hF)
    intro spec hspec
    cases t with
    | none =>
      obtain rfl := pure_eq_ok_iff.mp hfallback
      cases hspec
    | some t =>
      obtain ⟨spec', hspec', hsome⟩ := bind_eq_ok_iff.mp hfallback
      rw [pure_eq_ok_iff.mp hsome, Option.some.injEq] at hspec
      exact hs.of_evalSpec (hspec ▸ hspec')

end

/-! ## Values -/

section

variable [Part.Invariant ok]

theorem Everywhere.of_describes {F : FieldType} (hs : s.Everywhere ok) (h : s.Describes c F) :
    (Part.fieldType F).Throughout ok := by
  rcases hs.of_describes_cases h with hF | ⟨spec, d, hspec, hd, hF⟩
  · exact hF
  · exact throughout_of_optionalOf hspec hd hF

theorem Everywhere.of_yields {v : Value} (hs : s.Everywhere ok) (h : s.Yields c v) :
    (Part.value v).Throughout ok := by
  cases h with
  | read hF hv hw => exact throughout_of_read (hs.of_evalType? hF) (hs.of_eval _ hv) hw
  | construct hT hv hr =>
    exact throughout_of_record (throughout_of_construct (hs.of_type hT) (hs.of_eval _ hv) hr)
  | set hr hv hr' =>
    exact throughout_of_record (throughout_of_set (hs.of_record hr) (hs.of_eval _ hv) hr')
  | reset hr hr' =>
    exact throughout_of_record (throughout_of_set (hs.of_record hr) throughout_undefined hr')
  | setIn hr hv hr' =>
    exact throughout_of_record (throughout_of_setIn (hs.of_record hr) (hs.of_eval _ hv) hr')
  | toDraft hr => exact throughout_of_record (throughout_toDraft (hs.of_record hr))
  | commit hr => exact throughout_of_record (throughout_commit (hs.of_record hr))
  | get hr hv => exact throughout_of_get? (hs.of_value (value_of_record hr)) hv
  | getIn hr hv => exact throughout_of_record_getIn? (hs.of_record hr) hv
  | property hr hv =>
    obtain ⟨p, -, rfl⟩ := Option.map_eq_some_iff.mp hv
    exact throughout_getD (hs.of_value (value_of_record hr)) p.key
  | value hv => exact hs.of_eval _ hv
  | json => exact throughout_toValue _
  | integer => exact throughout_of_flat rfl

theorem Everywhere.of_rewrites {name : String} {r : Record} (hs : s.Everywhere ok)
    (h : s.Rewrites c name r) : (Part.record r).Throughout ok := by
  cases h with
  | write hr hv hr' =>
    exact throughout_of_set (hs.of_record hr) (hs.of_eval _ hv) (Record.set_of_write hr')
  | assign hr hv hr' =>
    obtain ⟨p, -, hset⟩ := Record.set_of_assign hr'
    exact throughout_of_set (hs.of_record hr) (hs.of_eval _ hv) hset

end

end Session

end Schemata
