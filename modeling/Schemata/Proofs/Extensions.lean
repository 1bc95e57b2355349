import Schemata.Proofs.Lineage
import Schemata.Proofs.Properties

/-!
# What an extension is

An extension takes a record type and the declarations of some fields. Little can go wrong: there
have to be declarations, and each has to name a type, which a literal that is undefined or null does
not. Then the schema is settled. The keys of the base come first, in their order, and those that are
new follow in the order of their declarations. A field has the type that it is declared with here,
or else the one that it has in the base (`RecordType.IsExtension`).

The new type is below the base, and so below all that the base is below. Its instances are instances
of these, also of what is above the base, whatever is declared later. The base is what it was.
-/

namespace Schemata

/-! ## Declarations of fields -/

/-- The spec is a literal that names no type. -/
def FieldSpec.isNullish : FieldSpec → Bool
  | type _ => false
  | literal v => v.isNullish

theorem FieldSpec.resolve_eq_none_iff {spec : FieldSpec} :
    spec.resolve = none ↔ spec.isNullish = true := by
  rcases spec with F | v
  · simp [resolve, isNullish]
  · cases v <;> simp [resolve, isNullish, Value.isNullish]

section

variable {fields : List (String × FieldSpec)} {schema : List (String × FieldType)}

/-- The first declaration that names no type is refused. -/
theorem resolveFields_eq_error_iff {e : DeclarationError} :
    resolveFields fields = .error e ↔
      ∃ key spec, fields.find? (·.2.isNullish) = some (key, spec) ∧ e = .unresolvedField key := by
  induction fields with
  | nil => simp [resolveFields]
  | cons d rest ih =>
    obtain ⟨key, spec⟩ := d
    rw [resolveFields, List.find?_cons]
    cases hF : spec.resolve with
    | none => simp [FieldSpec.resolve_eq_none_iff.mp hF, eq_comm]
    | some F =>
      have hspec : spec.isNullish = false := by
        rw [Bool.eq_false_iff, ne_eq, ← FieldSpec.resolve_eq_none_iff, hF]
        exact Option.some_ne_none F
      simp only [hspec, map_eq_error_iff, ih]

theorem get?_of_resolveFields (h : resolveFields fields = .ok schema) (key : String) :
    Entries.get? schema key = (Entries.get? fields key).bind FieldSpec.resolve :=
  Entries.get?_eq_bind_of_map (resolveFields_eq_ok_iff.mp h) key

end

/-! ## Extensions -/

namespace RecordType

/-- The type `T` is the extension of `base` by the fields, under the label. -/
structure IsExtension (base : RecordType) (fields : Entries FieldSpec) (label : Option String)
    (T : RecordType) : Prop where
  label_eq : T.label = label
  parent_eq : T.parent = some base
  /-- The keys of the base, and then those that are new, in order. -/
  keys_eq : Entries.keys T.schema =
    Entries.keys base.schema ++ (Entries.keys fields).filter (· ∉ Entries.keys base.schema)
  nodup : (Entries.keys T.schema).Nodup
  /-- A field has the type that it is declared with, or else the one that it has in the base. -/
  field?_eq : ∀ key,
    T.field? key = ((Entries.get? fields key).bind FieldSpec.resolve).or (base.field? key)
  size_eq : T.size =
    base.size + ((Entries.keys fields).filter (· ∉ Entries.keys base.schema)).length

variable {base T : RecordType} {id : Nat} {fields : Entries FieldSpec} {label : Option String}

theorem extend_eq_error_iff {e : DeclarationError} : base.extend id fields label = .error e ↔
    (fields = [] ∧ e = .noFields) ∨
      ∃ key spec, fields.find? (·.2.isNullish) = some (key, spec) ∧ e = .unresolvedField key := by
  rw [extend, ← List.isEmpty_iff]
  cases hfields : fields.isEmpty with
  | true =>
    rw [List.isEmpty_iff.mp hfields]
    simp [eq_comm]
  | false =>
    rw [if_neg Bool.false_ne_true, map_eq_error_iff, resolveFields_eq_error_iff]
    simp

/-- An extension fails for want of declarations, or because one of them names no type. -/
theorem exists_extend_eq_error_iff : (∃ e, base.extend id fields label = .error e) ↔
    fields = [] ∨ ∃ d ∈ fields, d.2.isNullish = true := by
  constructor
  · rintro ⟨e, he⟩
    rcases extend_eq_error_iff.mp he with ⟨hnil, -⟩ | ⟨key, spec, hfind, -⟩
    · exact Or.inl hnil
    · have hspec := List.find?_some hfind
      exact Or.inr ⟨(key, spec), List.mem_of_find?_eq_some hfind, hspec⟩
  · rintro (hnil | hsome)
    · exact ⟨_, extend_eq_error_iff.mpr (Or.inl ⟨hnil, rfl⟩)⟩
    · obtain ⟨⟨key, spec⟩, hfind⟩ := Option.isSome_iff_exists.mp (List.find?_isSome.mpr hsome)
      exact ⟨_, extend_eq_error_iff.mpr (Or.inr ⟨key, spec, hfind, rfl⟩)⟩

theorem isExtension_of_extend (hbase : (Entries.keys base.schema).Nodup)
    (hfields : (Entries.keys fields).Nodup) (h : base.extend id fields label = .ok T) :
    base.IsExtension fields label T := by
  have hnodup := nodup_keys_of_extend hbase h
  obtain ⟨-, added, hadded, rfl⟩ := extend_eq_ok_iff.mp h
  have hkeys := keys_of_resolveFields hadded
  have hschema : Entries.keys (Entries.putAll base.schema added) = Entries.keys base.schema ++
      (Entries.keys fields).filter (· ∉ Entries.keys base.schema) := by
    rw [Entries.keys_putAll_of_nodup (hkeys ▸ hfields), hkeys]
  refine ⟨rfl, rfl, hschema, hnodup, fun key ↦ ?_, ?_⟩
  · rw [field?, derived, Entries.get?_putAll, Entries.get?_reverse (hkeys ▸ hfields),
      get?_of_resolveFields hadded, field?]
  · have hlength := congrArg List.length hschema
    rw [List.length_append, Entries.keys, Entries.keys, List.length_map, List.length_map] at hlength
    exact hlength

/-- The ancestors of an extension are the extension and those of its base. -/
theorem ancestors_of_extend (h : base.extend id fields label = .ok T) :
    T.ancestors = T :: base.ancestors := by
  obtain ⟨-, added, -, rfl⟩ := extend_eq_ok_iff.mp h
  exact ancestors_of_parent_some rfl

/-- What is below a type is below what the type is below. -/
theorem Forest.isSubtypeOf_of_mem_ancestors {types : List RecordType} (h : Forest types)
    {S A : RecordType} (hS : S ∈ types) (hT : T ∈ types) (hST : S.isSubtypeOf T = true)
    (hA : A ∈ T.ancestors) : S.isSubtypeOf A = true := by
  have hmem := h.mem_of_mem_ancestors T hT A hA
  exact h.trans S hS T hT A hmem hST ((h.isSubtypeOf_iff T hT A hmem).mpr hA)

end RecordType

theorem Record.isInstanceOf_of_mem_ancestors {r : Record} {A : RecordType}
    (h : A ∈ r.type.ancestors) : r.isInstanceOf A = true :=
  List.any_eq_true.mpr ⟨A, h, A.identical_self⟩

/-! ## Extensions in a session -/

namespace Session

/-- The command extends the record type by the fields, under the label. -/
inductive Extends (s : Session) :
    Command → RecordType → Entries FieldSpec → Option String → Prop where
  | extend {name terms base fields label} : s.type name = .ok base →
    s.evalFields terms = .ok fields → Extends s (.extend name terms label) base fields label
  | extendSpec {t terms spec base fields label} : s.evalSpec t = .ok spec →
    spec.recordType? = some base → s.evalFields terms = .ok fields →
      Extends s (.extendSpec t terms label) base fields label

variable {s : Session} {c : Command} {step : Step} {steps : List Step} {base T : RecordType}
  {fields : Entries FieldSpec} {label : Option String}

theorem nodup_keys_of_extends (h : s.Extends c base fields label) :
    (Entries.keys fields).Nodup := by
  cases h with
  | extend _ hfields | extendSpec _ _ hfields => exact nodup_keys_of_evalFields hfields

theorem perform_of_extends (h : s.Extends c base fields label) : s.perform c =
    ((base.extend s.supply fields label).mapError .declaration).map s.receiveType := by
  cases h with
  | extend hbase hfields =>
    simp only [perform, attempt, result_taking, hbase, hfields, bind, Except.bind]
    cases base.extend s.supply fields label <;> rfl
  | extendSpec hspec hbase hfields =>
    simp only [perform, attempt, result_taking, hspec, hfields, RecordType.extendSpec, hbase, bind,
      Except.bind]
    cases base.extend s.supply fields label <;> rfl

theorem run_error_of_extends {e : DeclarationError} (h : s.Extends step.command base fields label)
    (he : base.extend s.supply fields label = .error e) :
    s.run step = .error (.declaration e) := by
  rw [run_eq, perform_of_extends h, he]
  rfl

/-- Apart from the name that the extension is bound to, nothing is bound anew. -/
theorem exists_run_of_extends (h : s.Extends step.command base fields label)
    (hT : base.extend s.supply fields label = .ok T) :
    ∃ s', s.run step = .ok (s', .recordType T) ∧ s'.fieldTypes = s.fieldTypes ∧
      s'.values = s.values := by
  rw [run_eq, perform_of_extends h, hT]
  cases step.binding with
  | none => exact ⟨_, rfl, rfl, rfl⟩
  | some name => exact ⟨_, rfl, rfl, rfl⟩

/-- A session extends a type that it has declared. -/
theorem mem_declared_of_extends (h : (script steps).Extends c base fields label) :
    base ∈ declared steps := by
  have hsound := (chronicle_script steps).everywhere
  cases h with
  | extend hbase _ => exact (Part.sound_recordType.mp (hsound.of_type hbase)).1.1
  | extendSpec hspec hbase _ =>
    have hbase := throughout_of_recordType? (hsound.of_evalSpec hspec) hbase
    exact (Part.sound_recordType.mp hbase).1.1

theorem declaredBy_of_run {s' : Session} (h : s.run step = .ok (s', .recordType T)) :
    s.declaredBy step = [T] := by
  rw [declaredBy, h]
  rfl

/-- **The schema of an extension is exact.** For every record type that a script declares, an
extension fails exactly if there are no declarations or if one of them is a literal that names no
type, and then the first such declaration is named. Otherwise the keys of the base come first, those
that are new follow, a field that is declared anew has its new type and every other one the type
that it has in the base. What the extension builds is an instance of it, of the base and of all that
is above the base.

A step that extends a type gives what the extension is, or its error. It adds one record type, which
no other one is and which is above none that there were, and changes nothing else that is bound, the
base included. An instance of the extension, also of a type declared below it later, is an instance
of the base and of all that is above the base. -/
theorem extension_is_exact (steps : List Step) :
    (∀ base ∈ declared steps, ∀ (id : Nat) (fields : Entries FieldSpec) (label : Option String),
      ((∃ e, base.extend id fields label = .error e) ↔
        fields = [] ∨ ∃ d ∈ fields, d.2.isNullish = true) ∧
      (∀ e, base.extend id fields label = .error e ↔ (fields = [] ∧ e = .noFields) ∨
        ∃ key spec, fields.find? (·.2.isNullish) = some (key, spec) ∧ e = .unresolvedField key) ∧
      ∀ T, (Entries.keys fields).Nodup → base.extend id fields label = .ok T →
        base.IsExtension fields label T ∧
          ∀ v r, T.construct v = .ok r → ∀ A ∈ T :: base.ancestors, r.isInstanceOf A = true) ∧
    ∀ step base fields label, (script steps).Extends step.command base fields label →
      base ∈ declared steps ∧ (Entries.keys fields).Nodup ∧
      (∀ e, base.extend (script steps).supply fields label = .error e →
        (script steps).run step = .error (.declaration e)) ∧
      ∀ T, base.extend (script steps).supply fields label = .ok T →
        (∃ s', (script steps).run step = .ok (s', .recordType T) ∧
          s'.fieldTypes = (script steps).fieldTypes ∧ s'.values = (script steps).values ∧
          ∀ name, step.binding ≠ some name → s'.type name = (script steps).type name) ∧
        (∀ S ∈ declared steps, S.identical T = false ∧ S.isSubtypeOf T = false) ∧
        ∀ more (r : Record), r.type ∈ declared (steps ++ step :: more) →
          r.isInstanceOf T = true →
            r.isInstanceOf base = true ∧ ∀ A ∈ base.ancestors, r.isInstanceOf A = true := by
  refine ⟨fun base hbase id fields label ↦ ?_, fun step base fields label h ↦ ?_⟩
  · have hnodup := (Part.sound_recordType.mp ((chronicle_script steps).sound base hbase)).1.2
    refine ⟨RecordType.exists_extend_eq_error_iff, fun e ↦ RecordType.extend_eq_error_iff, ?_⟩
    intro T hfields hT
    refine ⟨RecordType.isExtension_of_extend hnodup hfields hT, fun v r hr A hA ↦ ?_⟩
    refine Record.isInstanceOf_of_mem_ancestors ?_
    rwa [RecordType.type_of_construct hr, RecordType.ancestors_of_extend hT]
  · have hbase := mem_declared_of_extends h
    refine ⟨hbase, nodup_keys_of_extends h, fun e he ↦ run_error_of_extends h he, fun T hT ↦ ?_⟩
    obtain ⟨s', hrun, hfieldTypes, hvalues⟩ := exists_run_of_extends h hT
    have hkept := keptBy_of_run hrun
    have hdeclared (more : List Step) : declared (steps ++ step :: more) =
        declared steps ++ T :: ((script steps).after step).declaredFrom more := by
      rw [declared_append, declaredFrom, declaredBy_of_run hrun, List.singleton_append]
    refine ⟨⟨s', hrun, hfieldTypes, hvalues, fun name hname ↦ (hkept name hname).1⟩, ?_, ?_⟩
    · exact fun S hS ↦ not_isSubtypeOf_of_declared (hdeclared []) hS List.mem_cons_self
    · intro more r hr hinst
      have hforest := (chronicle_script (steps ++ step :: more)).forest
      have hmem : T ∈ declared (steps ++ step :: more) := by
        rw [hdeclared]
        exact List.mem_append_right _ List.mem_cons_self
      have habove : ∀ A ∈ base.ancestors, r.isInstanceOf A = true := by
        intro A hA
        refine hforest.isSubtypeOf_of_mem_ancestors hr hmem hinst ?_
        rw [RecordType.ancestors_of_extend hT]
        exact List.mem_cons_of_mem T hA
      exact ⟨habove base base.self_mem_ancestors, habove⟩

/-- Answers are letters that may have any text, and have a sender. -/
def answerFields : Entries FieldSpec := [("from", .type (.str none)), ("text", .type .any)]

def answerStep : Step :=
  ⟨.extend "Letter" [("from", .str), ("text", .any)] (some "Answer"), some "Answer"⟩

/-- The text of an answer stays where it is, and the sender goes last. The kind is still the one
that memos have, and an answer is a note. Without a type for one of its fields there is none. -/
theorem extension_is_exact_answer :
    (∃ T s', letter.type.extend 4 answerFields (some "Answer") = .ok T ∧
      Entries.keys T.schema = ["kind", "text", "to", "from"] ∧ T.field? "text" = some .any ∧
      T.field? "kind" = some (.str (some "memo")) ∧
      (script memoSteps).run answerStep = .ok (s', .recordType T) ∧
      s'.type "Letter" = .ok letter.type ∧
      ∃ r, T.construct (.map [("to", .str "Ada"), ("from", .str "Bob")]) = .ok r ∧
        r.isInstanceOf noteType = true) ∧
    letter.type.extend 4 [("from", .type (.str none)), ("text", .literal .null),
        ("to", .literal .undefined)] none = .error (.unresolvedField "text") := by
  have hdeclared : declared memoSteps = [noteType, memoType, letter.type] := rfl
  have hancestors : letter.type.ancestors = [letter.type, memoType, noteType] := rfl
  have hmem : letter.type ∈ declared memoSteps := by simp [hdeclared]
  obtain ⟨hexact, hstep⟩ := extension_is_exact memoSteps
  obtain ⟨T, hT⟩ : ∃ T, letter.type.extend 4 answerFields (some "Answer") = .ok T := ⟨_, rfl⟩
  obtain ⟨-, -, hsuccess⟩ := hexact _ hmem 4 answerFields (some "Answer")
  obtain ⟨hext, hinstance⟩ := hsuccess T (by decide) hT
  obtain ⟨-, -, -, hrun⟩ := hstep answerStep _ answerFields (some "Answer") (.extend rfl rfl)
  obtain ⟨⟨s', hs', -, -, htype⟩, -⟩ := hrun T hT
  obtain ⟨r, hr⟩ : ∃ r, T.construct (.map [("to", .str "Ada"), ("from", .str "Bob")]) = .ok r := by
    obtain rfl := Except.ok.inj hT
    exact ⟨_, rfl⟩
  refine ⟨⟨T, s', hT, hext.keys_eq.trans (by decide), hext.field?_eq "text", hext.field?_eq "kind",
    hs', htype "Letter" (by decide), r, hr, hinstance _ r hr noteType ?_⟩, ?_⟩
  · simp [hancestors]
  · obtain ⟨-, herror, -⟩ := hexact _ hmem 4 [("from", .type (.str none)),
      ("text", .literal .null), ("to", .literal .undefined)] none
    exact (herror _).mpr (Or.inr ⟨"text", .literal .null, rfl, rfl⟩)

end Session

end Schemata
