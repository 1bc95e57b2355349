import Schemata.Proofs.Sessions

/-!
# Named properties and fields

A field can be reached by its key or through a property of its name, and properties come from
several places: a root type has one for each field that it declares, an extension adds one for each
field that it declares, of another form, and a type under another label adds none. A name is looked
up along the ancestors, the nearest first, while the schema is one list. For a type that is made in
these ways alone (`RecordType.Declared`) the two views are the same: there is a property of a name
exactly if there is a field under it, and the property reads and assigns that field
(`RecordType.Declared.key_property?`). It does not matter which of the types declared the field, nor
how often it was declared anew.

The two forms of properties differ in when they refuse a record that is not a draft, before the
write or in it. Nobody can tell (`Property.assign_eq_write`).
-/

namespace Schemata

/-- A record type that is a root type, or made from one by any number of extensions and labels.
Extensions may declare fields anew. -/
inductive RecordType.Declared : RecordType → Prop where
  | declare {T : RecordType} {id : Nat} {fields : Entries FieldSpec} {label : Option String} :
    RecordType.declare id fields label = .ok T → T.Declared
  | extend {base T : RecordType} {id : Nat} {fields : Entries FieldSpec} {label : Option String} :
    base.Declared → base.extend id fields label = .ok T → T.Declared
  | relabelled {base : RecordType} {id : Nat} {label : String} : base.Declared →
    (base.relabelled id label).Declared

/-! ## Looking a property up -/

namespace RecordType

theorem property?_of_parent_none {T : RecordType} (h : T.parent = none) (name : String) :
    T.property? name = Entries.get? T.properties name := by
  rw [property?, ancestors_of_parent_none h]
  cases hget : Entries.get? T.properties name <;> simp [hget]

/-- A derived type has the properties that it adds and, under other names, those above it. -/
theorem property?_derived (id : Nat) (base : RecordType) (schema : Entries FieldType)
    (label : Option String) (properties : Entries Property) (name : String) :
    (derived id base schema label properties).property? name =
      (Entries.get? properties name).or (base.property? name) := by
  have hparent : (derived id base schema label properties).parent = some base := rfl
  rw [property?, ancestors_of_parent_some hparent, List.findSome?_cons, ← property?, derived]
  cases Entries.get? properties name <;> rfl

/-- **Properties are fields.** The property of a name is one of the field under this name, and there
is one exactly if there is such a field. -/
theorem Declared.key_property? {T : RecordType} (h : T.Declared) (name : String) :
    (T.property? name).map Property.key =
      if name ∈ Entries.keys T.schema then some name else none := by
  induction h with
  | declare h =>
    obtain ⟨schema, -, rfl⟩ := map_eq_ok_iff.mp h
    rw [property?_of_parent_none rfl, Entries.get?_ofKeys]
    split <;> rfl
  | @extend base T id fields label _ h ih =>
    obtain ⟨-, added, -, rfl⟩ := extend_eq_ok_iff.mp h
    rw [property?_derived, Entries.get?_ofKeys, derived]
    -- A field that the extension declares is found there, whether or not there was one before.
    by_cases hadded : name ∈ Entries.keys added
    · rw [if_pos hadded, if_pos (Entries.mem_keys_putAll.mpr (Or.inr hadded))]
      rfl
    · rw [if_neg hadded, Option.none_or, ih]
      simp only [Entries.mem_keys_putAll, hadded, or_false]
  | relabelled _ ih =>
    rw [RecordType.relabelled, property?_derived, Entries.get?_nil, Option.none_or, ih]
    rfl

end RecordType

/-! ## Reading and assigning -/

namespace Record

variable {r : Record} {name : String}

theorem assign_eq_write (hT : r.type.Declared) (hname : name ∈ Entries.keys r.type.schema)
    (v : Value) : r.assign name v = r.write name v := by
  have hkey := hT.key_property? name
  rw [if_pos hname, Option.map_eq_some_iff] at hkey
  obtain ⟨p, hp, rfl⟩ := hkey
  rw [assign_eq, hp]
  exact p.assign_eq_write r v

theorem assign_eq_unknownField (hT : r.type.Declared)
    (hname : name ∉ Entries.keys r.type.schema) (v : Value) :
    r.assign name v = .error (.unknownField name r.type.name) := by
  have hkey := hT.key_property? name
  rw [if_neg hname, Option.map_eq_none_iff] at hkey
  rw [assign_eq, hkey]

theorem set_eq_unknownField (hname : name ∉ Entries.keys r.type.schema) (v : Value) :
    r.set name v = .error (.unknownField name r.type.name) := by
  have hF : r.type.field? name = none := Entries.get?_eq_none_iff.mpr hname
  rw [set_eq, hF]

theorem WellTyped.property?_eq_get? (h : r.WellTyped) (hT : r.type.Declared) (name : String) :
    r.property? name = r.get? name := by
  have hkey := hT.key_property? name
  by_cases hname : name ∈ Entries.keys r.type.schema
  · rw [if_pos hname, Option.map_eq_some_iff] at hkey
    obtain ⟨p, hp, rfl⟩ := hkey
    rw [← h.keys_eq, ← Entries.get?_isSome_iff] at hname
    obtain ⟨x, hx⟩ := Option.isSome_iff_exists.mp hname
    rw [property?, hp, Option.map_some, Property.read, getD, get?, hx, Option.getD_some]
  · rw [if_neg hname, Option.map_eq_none_iff] at hkey
    rw [← h.keys_eq, ← Entries.get?_eq_none_iff] at hname
    rw [property?, hkey, Option.map_none, get?, hname]

end Record

/-! ## Properties mirror the schema -/

/-- **Properties mirror the schema** of a type that is made from a root type by extensions and
labels. There is a property of a name exactly if the type has a field under it, and it has the
field's value. In a draft, assigning the property and writing the field are the same, in what they
give and in how they fail. In a record that is not a draft both are refused for that reason, if
there is such a field. If there is none, assigning fails for want of it, in draft or not. The two
forms of properties cannot be told apart on any record. -/
theorem property_mirrors_schema {r : Record} (hT : r.type.Declared)
    (hr : Session.Reachable (.record r)) (name : String) (v : Value) :
    ((r.type.property? name).isSome = true ↔ name ∈ Entries.keys r.type.schema) ∧
      r.property? name = r.get? name ∧
      (r.draft = true → r.assign name v = r.write name v) ∧
      (r.draft = false → name ∈ Entries.keys r.type.schema →
        r.assign name v = .error .notADraft ∧ r.write name v = .error .notADraft) ∧
      (name ∉ Entries.keys r.type.schema →
        r.assign name v = .error (.unknownField name r.type.name)) ∧
      ∀ (key : String) (s : Record) (w : Value),
        (Property.draftOnly key).read s = (Property.field key).read s ∧
          (Property.draftOnly key).assign s w = (Property.field key).assign s w := by
  obtain ⟨htyped, -⟩ := Session.wellTyped_of_reachable hr
  refine ⟨?_, htyped.property?_eq_get? hT name, ?_, ?_,
    fun h ↦ Record.assign_eq_unknownField hT h v,
    fun key s w ↦ ⟨rfl, Property.assign_eq_write _ s w⟩⟩
  · rw [← Option.isSome_map, hT.key_property?]
    split <;> simp [*]
  · intro hdraft
    by_cases hname : name ∈ Entries.keys r.type.schema
    · exact Record.assign_eq_write hT hname v
    · rw [Record.assign_eq_unknownField hT hname, Record.write_eq, if_pos hdraft,
        Record.set_eq_unknownField hname]
  · intro hdraft hname
    have hwrite : r.write name v = .error .notADraft := by
      rw [Record.write_eq, hdraft]
      rfl
    exact ⟨(Record.assign_eq_write hT hname v).trans hwrite, hwrite⟩

/-! ## A memo as a note -/

namespace Session

/-- Notes of a kind, memos as notes whose kind has a default, under another label as well, and a
draft of a memo. -/
def memoSteps : List Step :=
  [⟨.declare [("kind", .str), ("text", .str)] (some "Note"), some "Note"⟩,
   ⟨.extend "Note" [("to", .str), ("kind", .literal (.str "memo"))] none, some "Memo"⟩,
   ⟨.relabel "Memo" "Letter", some "Letter"⟩,
   ⟨.construct "Letter" (.map [("text", .str "hello"), ("to", .str "Ada")]), some "letter"⟩,
   ⟨.toDraft "letter", some "draft"⟩]

def noteType : RecordType :=
  ⟨0, some "Note", [("kind", .str none), ("text", .str none)], none,
    [("kind", .field "kind"), ("text", .field "text")]⟩

def memoType : RecordType :=
  ⟨1, none, [("kind", .str (some "memo")), ("text", .str none), ("to", .str none)], some noteType,
    [("to", .draftOnly "to"), ("kind", .draftOnly "kind")]⟩

def letter : Record :=
  ⟨memoType.relabelled 2 "Letter", some 3,
    [("kind", .str "memo"), ("text", .str "hello"), ("to", .str "Ada")], false⟩

theorem declared_letter : letter.type.Declared := by
  have hnote : RecordType.declare 0 [("kind", .type (.str none)), ("text", .type (.str none))]
      (some "Note") = .ok noteType := rfl
  have hmemo : noteType.extend 1 [("to", .type (.str none)), ("kind", .literal (.str "memo"))]
      none = .ok memoType := rfl
  exact .relabelled (.extend (.declare hnote) hmemo)

/-- The kind of a letter is declared twice and its text far above, and there is no sender. -/
theorem property_mirrors_schema_letter :
    letter.property? "kind" = letter.get? "kind" ∧
      letter.toDraft.assign "text" (.str "bye") = letter.toDraft.write "text" (.str "bye") ∧
      letter.assign "to" (.str "Bob") = .error .notADraft ∧
      letter.assign "from" (.str "Bob") = .error (.unknownField "from" "Letter") := by
  have hletter : (script memoSteps).record "letter" = .ok letter := rfl
  have hdraft : (script memoSteps).record "draft" = .ok letter.toDraft := rfl
  have hreach := reachable_of_record hletter
  have hto : "to" ∈ Entries.keys letter.type.schema := by decide
  have hfrom : "from" ∉ Entries.keys letter.type.schema := by decide
  obtain ⟨-, hget, -⟩ := property_mirrors_schema declared_letter hreach "kind" .undefined
  obtain ⟨-, -, hwrite, -⟩ := property_mirrors_schema (r := letter.toDraft) declared_letter
    (reachable_of_record hdraft) "text" (.str "bye")
  obtain ⟨-, -, -, hrefused, -⟩ := property_mirrors_schema declared_letter hreach "to" (.str "Bob")
  obtain ⟨-, -, -, -, hunknown, -⟩ :=
    property_mirrors_schema declared_letter hreach "from" (.str "Bob")
  exact ⟨hget, hwrite rfl, (hrefused rfl hto).1, hunknown hfrom⟩

end Session

end Schemata
