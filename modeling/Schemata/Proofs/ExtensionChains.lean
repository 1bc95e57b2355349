import Schemata.Proofs.Extensions

/-!
# Chains of extensions

An extension of an extension could have been made in one step, from the declarations of both
steps: those of the second written over those of the first, where a field that is declared again
keeps its place. The two types are not one, and they have different ancestors. But they have the
same fields, the same name and the same properties, and what they make of a value is the same
(`RecordType.Alike`). In particular an extension of a type without fields has the schema of the root
type with these fields.

The order of the fields comes out right because writes compose (`Entries.putAll_putAll`), once in
the schema, where field types are written over those of the base, and once in the declarations.
-/

namespace Schemata

/-- What is resolved one after the other may as well be put together first. -/
theorem resolveFields_putAll {first second : Entries FieldSpec} {xs ys : Entries FieldType}
    (hfirst : resolveFields first = .ok xs) (hsecond : resolveFields second = .ok ys) :
    resolveFields (Entries.putAll first second) = .ok (Entries.putAll xs ys) := by
  rw [resolveFields_eq_ok_iff] at hfirst hsecond ⊢
  rw [Entries.map_putAll, Entries.map_putAll, hfirst, hsecond]

namespace RecordType

/-- The types are declared alike: they have the same fields, in the same order, the same name and
the same properties, and from one value they build records with the same values, or fail with the
same error. A session that takes two such records in numbers the new storages in them, which does
not change their contents. -/
structure Alike (S T : RecordType) : Prop where
  schema_eq : S.schema = T.schema
  name_eq : S.name = T.name
  size_eq : S.size = T.size
  property?_eq : ∀ name, S.property? name = T.property? name
  construct_error : ∀ v e, S.construct v = .error e ↔ T.construct v = .error e
  construct_ok : ∀ v r, T.construct v = .ok r → ∃ s, S.construct v = .ok s ∧
    s.fields = r.fields ∧ (∀ name, s.property? name = r.property? name) ∧
      ∀ n m, (s.settle n).1.contents.fields = (r.settle m).1.contents.fields

variable {S T base : RecordType} {id : Nat} {fields : Entries FieldSpec} {label : Option String}

theorem name_eq_of_schema_eq (hschema : S.schema = T.schema) (hlabel : S.label = T.label) :
    S.name = T.name := by
  obtain ⟨i, l, fields, parent, properties⟩ := S
  obtain ⟨j, l', fields', parent', properties'⟩ := T
  obtain rfl : fields = fields' := hschema
  obtain rfl : l = l' := hlabel
  cases l <;> rfl

theorem construct_eq_map (hschema : S.schema = T.schema) (hname : S.name = T.name) (v : Value) :
    S.construct v = (T.construct v).map fun r ↦ { r with type := S } := by
  rw [construct_eq, construct_eq, build, build, hschema, hname]
  split
  · rw [map_map]
  · rfl

theorem alike_of_schema_eq (hschema : S.schema = T.schema) (hlabel : S.label = T.label)
    (hproperty : ∀ name, S.property? name = T.property? name) : S.Alike T := by
  have hname := name_eq_of_schema_eq hschema hlabel
  refine ⟨hschema, hname, congrArg List.length hschema, hproperty, fun v e ↦ ?_, fun v r hr ↦ ?_⟩
  · rw [construct_eq_map hschema hname, map_eq_error_iff]
  · refine ⟨{ r with type := S }, ?_, rfl, fun name ↦ ?_, fun n m ↦ ?_⟩
    · rw [construct_eq_map hschema hname, hr]
      rfl
    · rw [Record.property?, Record.property?, type_of_construct hr, hproperty]
      rfl
    · rw [Record.contents_settle, Record.contents_settle, Record.fields_contents,
        Record.fields_contents]

/-- **An extension of an extension** is like the extension by the declarations of both. -/
theorem exists_extend_alike {m c : RecordType} {i j : Nat} {first second : Entries FieldSpec}
    {l : Option String} (hfirst : (Entries.keys first).Nodup) (hm : base.extend i first l = .ok m)
    (hc : m.extend j second label = .ok c) : ∃ c',
      base.extend id (Entries.putAll first second) label = .ok c' ∧ c'.Alike c := by
  obtain ⟨hsome, xs, hxs, rfl⟩ := extend_eq_ok_iff.mp hm
  obtain ⟨-, ys, hys, rfl⟩ := extend_eq_ok_iff.mp hc
  refine ⟨_, extend_eq_ok_iff.mpr ⟨Entries.putAll_ne_nil hsome second, _,
    resolveFields_putAll hxs hys, rfl⟩, ?_⟩
  have hxs : (Entries.keys xs).Nodup := keys_of_resolveFields hxs ▸ hfirst
  refine alike_of_schema_eq (Entries.putAll_putAll hxs _ _) rfl fun name ↦ ?_
  -- A property is found where its field was declared last, or in the base if in neither step.
  simp only [property?_derived, Entries.get?_ofKeys, Entries.mem_keys_putAll]
  by_cases hy : name ∈ Entries.keys ys
  · simp [hy]
  · simp [hy]

theorem map_schema_extend (hbase : base.schema = []) (hsome : fields ≠ [])
    (hfields : (Entries.keys fields).Nodup) (id k : Nat) (label l : Option String) :
    (base.extend id fields label).map schema = (declare k fields l).map schema := by
  rw [extend, if_neg (mt List.isEmpty_iff.mp hsome), declare, map_map, map_map]
  cases hadded : resolveFields fields with
  | error e => rfl
  | ok added =>
    have hself := Entries.ofList_eq_self (keys_of_resolveFields hadded ▸ hfields)
    rw [Except.map, Except.map, derived, hbase]
    exact congrArg Except.ok hself

theorem declare_eq_error_iff {e : DeclarationError} : declare id fields label = .error e ↔
    ∃ key spec, fields.find? (·.2.isNullish) = some (key, spec) ∧ e = .unresolvedField key := by
  rw [declare, map_eq_error_iff, resolveFields_eq_error_iff]

/-- **A chain of extensions is one extension.** If a type is extended and the extension is extended
again, then the extension by all the declarations, with those of the second step written over those
of the first, succeeds too. It has the same schema, name, size and properties, and builds the same
from every value or fails with the same error. Likewise an extension of a root type without fields
has the schema of the root type that is declared with the fields, and if one of these names no type,
then both fail with the first that does not. -/
theorem extensions_compose :
    (∀ (base m c : RecordType) (i j k : Nat) (first second : Entries FieldSpec)
      (l label : Option String), (Entries.keys first).Nodup → base.extend i first l = .ok m →
        m.extend j second label = .ok c → ∃ c',
          base.extend k (Entries.putAll first second) label = .ok c' ∧ c'.Alike c) ∧
    ∀ (root : RecordType) (i j k : Nat) (fields : Entries FieldSpec) (l l' label : Option String),
      declare i [] l = .ok root → fields ≠ [] → (Entries.keys fields).Nodup →
        (root.extend j fields label).map schema = (declare k fields l').map schema ∧
        (∀ e, root.extend j fields label = .error e ↔ ∃ key spec,
          fields.find? (·.2.isNullish) = some (key, spec) ∧ e = .unresolvedField key) ∧
        ∀ e, declare k fields l' = .error e ↔ ∃ key spec,
          fields.find? (·.2.isNullish) = some (key, spec) ∧ e = .unresolvedField key := by
  refine ⟨fun _ _ _ _ _ _ _ _ _ _ ↦ exists_extend_alike, ?_⟩
  intro root i j k fields l l' label hroot hsome hfields
  obtain rfl := Except.ok.inj hroot
  refine ⟨map_schema_extend rfl hsome hfields j k label l', fun e ↦ ?_, fun e ↦ ?_⟩
  · rw [extend_eq_error_iff]
    exact or_iff_right fun hnil ↦ hsome hnil.1
  · exact declare_eq_error_iff

/-- Urgent memos have a flag and another kind, and whom they are for may be anything. -/
def urgentFields : Entries FieldSpec :=
  [("flag", .literal (.bool true)), ("kind", .literal (.str "urgent")), ("to", .type .any)]

/-- Urgent memos could have been made from notes. The addressee and the kind, which are declared
twice, are listed as they are for memos, and the flag goes last. From a type without fields they get
the fields as they are listed, and the first field without a type is refused. -/
theorem extensions_compose_urgent :
    (∃ c c', Session.memoType.extend 2 urgentFields none = .ok c ∧
      Session.noteType.extend 3 [("to", .type .any), ("kind", .literal (.str "urgent")),
        ("flag", .literal (.bool true))] none = .ok c' ∧
      c'.schema = c.schema ∧ c'.property? "to" = c.property? "to" ∧
      ∃ r r', c.construct (.map [("text", .str "now")]) = .ok r ∧
        c'.construct (.map [("text", .str "now")]) = .ok r' ∧ r'.fields = r.fields) ∧
    (RecordType.extend 1 ⟨0, none, [], none, []⟩ urgentFields none).map schema =
      .ok [("flag", .bool (some true)), ("kind", .str (some "urgent")), ("to", .any)] ∧
    RecordType.extend 1 ⟨0, none, [], none, []⟩ [("flag", .type .any), ("kind", .literal .null),
      ("to", .literal .undefined)] none = .error (.unresolvedField "kind") := by
  obtain ⟨hchain, hroot⟩ := extensions_compose
  refine ⟨?_, ?_, ?_⟩
  · obtain ⟨c, hc⟩ : ∃ c, Session.memoType.extend 2 urgentFields none = .ok c := ⟨_, rfl⟩
    obtain ⟨r, hr⟩ : ∃ r, c.construct (.map [("text", .str "now")]) = .ok r := by
      obtain rfl := Except.ok.inj hc
      exact ⟨_, rfl⟩
    obtain ⟨c', hc', halike⟩ := hchain Session.noteType Session.memoType c 1 2 3
      [("to", .type (.str none)), ("kind", .literal (.str "memo"))] urgentFields none none
      (by decide) rfl hc
    obtain ⟨r', hr', hfields, -⟩ := halike.construct_ok _ r hr
    exact ⟨c, c', hc, hc', halike.schema_eq, halike.property?_eq "to", r, r', hr, hr', hfields⟩
  · obtain ⟨hschema, -⟩ := hroot _ 0 1 2 urgentFields none none none rfl (List.cons_ne_nil _ _)
      (by decide)
    exact hschema.trans rfl
  · obtain ⟨-, herror, -⟩ := hroot _ 0 1 2 [("flag", .type .any), ("kind", .literal .null),
      ("to", .literal .undefined)] none none none rfl (List.cons_ne_nil _ _) (by decide)
    exact (herror _).mpr ⟨"kind", .literal .null, rfl, rfl⟩

end RecordType

end Schemata
