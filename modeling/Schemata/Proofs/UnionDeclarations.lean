import Schemata.Proofs.TagAgreement

/-!
# Which unions are declared

A union is declared from a tag, a list of branches and perhaps a fallback, and there is a good deal
to check: the tag has a name, each branch stands for a record type that has the tag as a string,
there is a branch at all, and the fallback is in order as the branches are. Written down in the
order in which they are looked at (`FieldType.unionRequirements`), these are all that is asked. A
union is declared if they are met, and otherwise the first one that is not decides the error.

A text may be given to several branches. All of them are checked, also those that do not count in
the end. What counts is the last entry with the text, at the place of the first: looked up from
behind, the list of entries says which type a text selects.
-/

namespace Schemata

/-! ## Requirements in order -/

/-- Something that is asked of a declaration, and the error of one that does not meet it. -/
structure Requirement where
  met : Bool
  error : DeclarationError

namespace Requirement

/-- The error of the first requirement that is not met. -/
def firstError? (requirements : List Requirement) : Option DeclarationError :=
  (requirements.find? (!·.met)).map error

@[simp] theorem firstError?_nil : firstError? [] = none := rfl

theorem firstError?_append (xs ys : List Requirement) :
    firstError? (xs ++ ys) = (firstError? xs).or (firstError? ys) := by
  rw [firstError?, List.find?_append, Option.map_or, ← firstError?, ← firstError?]

theorem firstError?_cons (x : Requirement) (xs : List Requirement) :
    firstError? (x :: xs) = if x.met then firstError? xs else some x.error := by
  rw [firstError?, List.find?_cons]
  cases x.met <;> rfl

/-- Where a declaration fails with the first error, it succeeds only if there is none. -/
theorem firstError?_eq_none_of_ok {α : Type} {x : Except DeclarationError α} {a : α}
    {requirements : List Requirement} (h : ∀ e, x = .error e ↔ firstError? requirements = some e)
    (hx : x = .ok a) : firstError? requirements = none := by
  rw [Option.eq_none_iff_forall_ne_some]
  intro e he
  rw [← h, hx] at he
  cases he

end Requirement

/-- The spec stands for a record type that has the tag as a string. -/
def FieldSpec.DeclaresTag (spec : FieldSpec) (tag : String) : Prop :=
  ∃ T d, spec.recordType? = some T ∧ T.field? tag = some (.str d)

namespace FieldType

open Requirement

/-- What is asked of a branch: it is a record type, it has the tag, and it has it as a string. -/
def branchRequirements (tag branch : String) (spec : FieldSpec) : List Requirement :=
  let tagType? := spec.recordType?.bind (·.field? tag)
  [⟨spec.recordType?.isSome, .branchNotRecord branch⟩,
   ⟨tagType?.isSome, .branchWithoutTag branch tag⟩,
   ⟨tagType?.any isStr, .branchTagNotString branch tag⟩]

/-- What is asked of a union: of its tag, of each of its branches, of their number and of its
fallback. -/
def unionRequirements (tag : String) (branches : List (String × FieldSpec))
    (fallback : Option FieldSpec) : List Requirement :=
  [⟨!tag.isEmpty, .emptyTag⟩] ++ branches.flatMap (fun b ↦ branchRequirements tag b.1 b.2) ++
    [⟨!branches.isEmpty, .noBranches⟩] ++ fallback.toList.flatMap (branchRequirements tag "default")

variable {tag branch : String} {spec : FieldSpec} {branches : List (String × FieldSpec)}
  {fallback : Option FieldSpec} {e : DeclarationError}

/-! ## Branches -/

theorem branchType_eq_error_iff (e : DeclarationError) :
    branchType tag branch spec = .error e ↔
      firstError? (branchRequirements tag branch spec) = some e := by
  rw [branchType, branchRequirements]
  simp only [firstError?_cons]
  cases spec.recordType? with
  | none => simp
  | some T =>
    cases hF : T.field? tag with
    | none => simp [hF]
    | some F => cases hstr : F.isStr <;> simp [hF, hstr, firstError?]

theorem exists_branchType_iff (tag branch : String) (spec : FieldSpec) :
    (∃ T, branchType tag branch spec = .ok T) ↔ spec.DeclaresTag tag := by
  simp only [branchType_eq_ok_iff, FieldSpec.DeclaresTag, exists_and_left]

/-- The branches are checked one after the other. -/
theorem branchTypes_eq_error_iff (e : DeclarationError) :
    branchTypes tag branches = .error e ↔
      firstError? (branches.flatMap fun b ↦ branchRequirements tag b.1 b.2) = some e := by
  induction branches with
  | nil => simp [branchTypes, firstError?]
  | cons b rest ih =>
    obtain ⟨branch, spec⟩ := b
    rw [branchTypes, List.flatMap_cons, firstError?_append]
    cases hT : branchType tag branch spec with
    | error e' => simp [(branchType_eq_error_iff e').mp hT]
    | ok T =>
      rw [firstError?_eq_none_of_ok branchType_eq_error_iff hT, Option.none_or, ← ih]
      exact map_eq_error_iff

theorem exists_branchTypes_iff :
    (∃ types, branchTypes tag branches = .ok types) ↔ ∀ b ∈ branches, b.2.DeclaresTag tag := by
  induction branches with
  | nil => exact iff_of_true ⟨[], rfl⟩ (List.forall_mem_nil _)
  | cons b rest ih =>
    obtain ⟨branch, spec⟩ := b
    rw [branchTypes, List.forall_mem_cons, ← ih, ← exists_branchType_iff tag branch]
    cases branchType tag branch spec with
    | error e => simp
    | ok T => simp [exists_map_eq_ok_iff]

/-- Each branch keeps its text and has the record type that its spec stands for. -/
theorem map_of_branchTypes {types : List (String × RecordType)}
    (h : branchTypes tag branches = .ok types) :
    types.map (fun b ↦ (b.1, some b.2)) = branches.map fun b ↦ (b.1, b.2.recordType?) := by
  induction branches generalizing types with
  | nil =>
    obtain rfl := Except.ok.inj h
    rfl
  | cons b rest ih =>
    obtain ⟨branch, spec⟩ := b
    rw [branchTypes] at h
    cases hT : branchType tag branch spec with
    | error e =>
      rw [hT] at h
      cases h
    | ok T =>
      rw [hT] at h
      obtain ⟨more, hmore, rfl⟩ := map_eq_ok_iff.mp h
      obtain ⟨hspec, -⟩ := branchType_eq_ok_iff.mp hT
      rw [List.map_cons, List.map_cons, ih hmore, hspec]

theorem fallbackType_eq_error_iff (e : DeclarationError) :
    fallbackType tag fallback = .error e ↔
      firstError? (fallback.toList.flatMap (branchRequirements tag "default")) = some e := by
  cases fallback with
  | none => simp [fallbackType, firstError?]
  | some spec => simp [fallbackType, map_eq_error_iff, branchType_eq_error_iff]

theorem exists_fallbackType_iff :
    (∃ T?, fallbackType tag fallback = .ok T?) ↔ ∀ spec ∈ fallback, spec.DeclaresTag tag := by
  cases fallback with
  | none => exact iff_of_true ⟨none, rfl⟩ nofun
  | some spec =>
    simp [fallbackType, exists_map_eq_ok_iff, ← exists_branchType_iff tag "default"]

theorem eq_of_fallbackType {T? : Option RecordType} (h : fallbackType tag fallback = .ok T?) :
    T? = fallback.bind FieldSpec.recordType? := by
  cases fallback with
  | none => exact (Except.ok.inj h).symm
  | some spec =>
    obtain ⟨T, hT, rfl⟩ := map_eq_ok_iff.mp h
    exact (branchType_eq_ok_iff.mp hT).1.symm

/-! ## Unions -/

/-- There are as many record types as branches. -/
theorem isEmpty_of_branchTypes {types : List (String × RecordType)}
    (h : branchTypes tag branches = .ok types) : types.isEmpty = branches.isEmpty := by
  have hlength := congrArg List.length (map_of_branchTypes h)
  rw [List.length_map, List.length_map] at hlength
  rw [Bool.eq_iff_iff, List.isEmpty_iff_length_eq_zero, hlength, List.isEmpty_iff_length_eq_zero]

/-- **The first requirement that is not met** decides the error. -/
theorem unionOf_eq_error_iff (e : DeclarationError) :
    unionOf tag branches fallback = .error e ↔
      firstError? (unionRequirements tag branches fallback) = some e := by
  rw [unionOf, unionRequirements]
  simp only [firstError?_append, firstError?_cons, firstError?_nil]
  cases tag.isEmpty with
  | true => simp
  | false =>
    cases htypes : branchTypes tag branches with
    | error e' => simp [(branchTypes_eq_error_iff e').mp htypes]
    | ok types =>
      simp only [firstError?_eq_none_of_ok branchTypes_eq_error_iff htypes,
        isEmpty_of_branchTypes htypes]
      cases branches.isEmpty with
      | true => simp
      | false => simp [map_eq_error_iff, fallbackType_eq_error_iff]

/-- A union is declared if it has a tag and branches and these and the fallback have the tag. -/
theorem exists_unionOf_iff :
    (∃ F, unionOf tag branches fallback = .ok F) ↔
      tag ≠ "" ∧ branches ≠ [] ∧ (∀ b ∈ branches, b.2.DeclaresTag tag) ∧
        ∀ spec ∈ fallback, spec.DeclaresTag tag := by
  rw [← exists_branchTypes_iff, ← exists_fallbackType_iff]
  simp only [unionOf_eq_ok_iff, ne_eq, ← String.isEmpty_iff, ← List.isEmpty_iff, Bool.not_eq_true]
  constructor
  · rintro ⟨F, htag, types, T?, htypes, hsome, hfallback, -⟩
    exact ⟨htag, isEmpty_of_branchTypes htypes ▸ hsome, ⟨types, htypes⟩, T?, hfallback⟩
  · rintro ⟨htag, hsome, ⟨types, htypes⟩, T?, hfallback⟩
    exact ⟨_, htag, types, T?, htypes, (isEmpty_of_branchTypes htypes).trans hsome, hfallback, rfl⟩

/-- Among the record types of the branches, a text finds that of the last entry with the text. -/
theorem get?_ofList_of_branchTypes {types : List (String × RecordType)}
    (h : branchTypes tag branches = .ok types) (text : String) :
    Entries.get? (Entries.ofList types) text =
      (Entries.get? branches.reverse text).bind FieldSpec.recordType? := by
  have hreverse := congrArg List.reverse (map_of_branchTypes h)
  rw [← List.map_reverse, ← List.map_reverse] at hreverse
  rw [Entries.get?_ofList, Entries.get?_eq_bind_of_map hreverse]

/-- **Exactly the well-formed unions are declared.** A union is declared if its tag has a name, if
there is a branch, and if every branch, also one that a later branch with the same text replaces,
and the fallback stand for record types that have the tag as a string. Otherwise the error is that
of the first requirement which is not met: of the tag, of the branches one after the other (to be a
record type, to have the tag, to have it as a string), of their number, of the fallback. A union
that is declared has each text once, in the order in which the texts first come up, with the type of
the last branch with this text, and this is what a text selects, or else the fallback. -/
theorem unionOf_declares_exactly (tag : String) (branches : List (String × FieldSpec))
    (fallback : Option FieldSpec) :
    ((∃ F, unionOf tag branches fallback = .ok F) ↔
      tag ≠ "" ∧ branches ≠ [] ∧ (∀ b ∈ branches, b.2.DeclaresTag tag) ∧
        ∀ spec ∈ fallback, spec.DeclaresTag tag) ∧
    (∀ e, unionOf tag branches fallback = .error e ↔
      firstError? (unionRequirements tag branches fallback) = some e) ∧
    ∀ F, unionOf tag branches fallback = .ok F →
      ∃ types fallbackType, F = .union tag types fallbackType ∧
        Entries.keys types = (Entries.keys branches).eraseDups ∧
        (∀ text, Entries.get? types text =
          (Entries.get? branches.reverse text).bind FieldSpec.recordType?) ∧
        fallbackType = fallback.bind FieldSpec.recordType? ∧
        ∀ text, RecordType.select? types fallbackType text =
          ((Entries.get? branches.reverse text).bind FieldSpec.recordType?).or
            (fallback.bind FieldSpec.recordType?) := by
  refine ⟨exists_unionOf_iff, unionOf_eq_error_iff, fun F hF ↦ ?_⟩
  obtain ⟨-, types, T?, htypes, -, hfallback, rfl⟩ := unionOf_eq_ok_iff.mp hF
  have hkeys : Entries.keys types = Entries.keys branches := by
    rw [← Entries.keys_map some types, map_of_branchTypes htypes, Entries.keys_map]
  have hget := get?_ofList_of_branchTypes htypes
  have hT := eq_of_fallbackType hfallback
  refine ⟨_, _, rfl, ?_, hget, hT, fun text ↦ ?_⟩
  · rw [Entries.keys_ofList, hkeys]
  · rw [RecordType.select?, hget, hT]

/-- Branches for texts and memos, in which the texts are declared anew, and as what. -/
def texts (again : FieldSpec) : List (String × FieldSpec) :=
  [("text", .type (.ofRecordType (taggedType 0 "Text" none))),
   ("memo", .type (.ofRecordType (taggedType 1 "Memo" (some "memo")))), ("text", again)]

/-- A text is what it was declared to be last, in the first place. With a fallback that lacks the
tag there is no union, but it is not looked at as long as a branch is no record type. -/
theorem unionOf_declares_exactly_texts :
    (∃ types T?, unionOf "kind" (texts (.type (.ofRecordType (taggedType 2 "Prose" none)))) none =
        .ok (.union "kind" types T?) ∧ Entries.keys types = ["text", "memo"] ∧
          RecordType.select? types T? "text" = some (taggedType 2 "Prose" none) ∧
            RecordType.select? types T? "note" = none) ∧
      unionOf "kind" (texts (.literal .null))
          (some (.type (.ofRecordType ⟨3, none, [], none, []⟩))) =
        .error (.branchNotRecord "text") := by
  have hprose : (FieldSpec.type (.ofRecordType (taggedType 2 "Prose" none))).DeclaresTag "kind" :=
    ⟨_, none, rfl, rfl⟩
  have hdeclare : ∀ b ∈ texts (.type (.ofRecordType (taggedType 2 "Prose" none))),
      b.2.DeclaresTag "kind" := by
    refine List.forall_mem_cons.mpr ⟨⟨_, none, rfl, rfl⟩, List.forall_mem_cons.mpr ⟨?_, ?_⟩⟩
    · exact ⟨_, some "memo", rfl, rfl⟩
    · exact List.forall_mem_singleton.mpr hprose
  obtain ⟨hexists, -, hunion⟩ := unionOf_declares_exactly "kind" (texts (.type
    (.ofRecordType (taggedType 2 "Prose" none)))) none
  obtain ⟨F, hF⟩ := hexists.mpr ⟨by decide, List.cons_ne_nil _ _, hdeclare, nofun⟩
  obtain ⟨types, T?, rfl, hkeys, -, -, hselect⟩ := hunion F hF
  refine ⟨⟨types, T?, hF, hkeys.trans (by decide), hselect "text", hselect "note"⟩, ?_⟩
  obtain ⟨-, herror, -⟩ := unionOf_declares_exactly "kind" (texts (.literal .null))
    (some (.type (.ofRecordType ⟨3, none, [], none, []⟩)))
  exact (herror _).mpr rfl

end FieldType

end Schemata
