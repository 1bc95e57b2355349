import Schemata.Proofs.Defaults

/-!
# Optionals

An optional is its inner type and two values more, undefined and null. Null it keeps. Undefined it
takes for its default, and this is the one place where a default is read a second time: it was read
when the optional was declared, or taken over from the inner type without a look, and now it passes
through the inner type again. So it comes out as it is exactly if the inner type takes it
(`FieldType.ReadsOptionally`).

A default that was given has been read, and is taken where tags are strict. One that is taken over
need not be: a record type may come with a default that is an instance of another type, and then
undefined is refused, or becomes another record (`FieldType.foreign_default_refused`). The types
that a session declares have defaults that fit (`FieldType.DefaultFits`).

Any other value goes to the inner type, so optionals within each other read it as the innermost type
does, whatever their defaults are (`FieldType.read_optionals`).
-/

namespace Schemata

namespace FieldType

variable {F inner : FieldType} {d v w : Value}

/-- What an optional `F` of `inner` with the default `d` reads. -/
structure ReadsOptionally (F inner : FieldType) (d : Value) : Prop where
  /-- Undefined stands for the default exactly if this is nullish or the inner type takes it. -/
  undefined : F.read .undefined = .ok d ↔ d.isNullish = true ∨ inner.takes d = true
  /-- A default that is not nullish is left to the inner type. -/
  default : d.isNullish = false → ∀ w, F.read .undefined = .ok w ↔ inner.read d = .ok w
  null : F.read .null = .ok .null
  /-- What is there is left to the inner type. -/
  present : ∀ v w, v.isNullish = false → (F.read v = .ok w ↔ inner.read v = .ok w)
  not_nullish : ∀ v w, v.isNullish = false → F.read v = .ok w → w.isNullish = false

/-- An optional leaves a value that is there to the inner type. -/
theorem read_optional_of_not_nullish (hv : v.isNullish = false) :
    (optional inner d).read v = .ok w ↔ inner.read v = .ok w := by
  rw [read_optional_eq_ok_iff, orDefault_of_not_nullish hv, hv, if_neg Bool.false_ne_true]

theorem read_optional_undefined : (optional inner d).read .undefined = .ok w ↔
    if d.isNullish = true then w = d else inner.read d = .ok w :=
  read_optional_eq_ok_iff

theorem readsOptionally_optional : (optional inner d).ReadsOptionally inner d where
  undefined := by
    rw [read_optional_undefined]
    cases hd : d.isNullish with
    | true => exact iff_of_true rfl (Or.inl rfl)
    | false =>
      have hne : d ≠ .undefined := by
        rintro rfl
        cases hd
      simp [read_eq_self_iff hne]
  default hd w := by rw [read_optional_undefined, hd, if_neg Bool.false_ne_true]
  null := rfl
  present _ _ hv := read_optional_of_not_nullish hv
  not_nullish _ _ hv hw := not_nullish_of_read hw hv

/-- A default that fits is what undefined stands for. -/
theorem DefaultFits.read_undefined (h : (optional inner d).DefaultFits) (hinner : inner.TagStrict) :
    (optional inner d).read .undefined = .ok d :=
  read_optional_of_orDefault rfl fun hd ↦ h.2 hd hinner

/-- Optionals within each other around `F`, with these defaults from the outermost on. -/
def optionals (F : FieldType) (ds : List Value) : FieldType :=
  ds.foldr (fun d G ↦ .optional G d) F

theorem read_optionals (ds : List Value) (hv : v.isNullish = false) :
    (F.optionals ds).read v = .ok w ↔ F.read v = .ok w := by
  induction ds with
  | nil => rfl
  | cons d rest ih => exact (read_optional_of_not_nullish hv).trans ih

theorem isAny_iff : F.isAny = true ↔ F = .any := by
  cases F <;> simp [isAny]

/-- The optional of a type other than that of all values fails only by its default. -/
theorem exists_error_of_optionalOf_of_resolve {spec : FieldSpec}
    (hinner : spec.resolve = some inner) (hany : inner.isAny = false) :
    (∃ e, optionalOf spec d = .error e) ↔ d.isNullish = false ∧ ∃ e, inner.read d = .error e := by
  rw [optionalOf_of_resolve d hinner hany]
  cases d.isNullish with
  | true => simp
  | false =>
    rw [if_neg Bool.false_ne_true, and_iff_right rfl]
    simp only [map_eq_error_iff]
    cases inner.read d with
    | error cause => exact iff_of_true ⟨_, rfl⟩ ⟨cause, rfl⟩
    | ok x =>
      refine iff_of_false ?_ ?_
      · rintro ⟨_, h⟩
        cases h
      · rintro ⟨_, h⟩
        cases h

/-- When an optional cannot be declared. -/
theorem exists_error_of_optionalOf_iff {spec : FieldSpec} :
    (∃ e, optionalOf spec d = .error e) ↔ spec.resolve = none ∨ spec.resolve = some .any ∨
      ∃ inner e, spec.resolve = some inner ∧ d.isNullish = false ∧ inner.read d = .error e := by
  cases hinner : spec.resolve with
  | none => exact iff_of_true ⟨_, by rw [optionalOf, hinner]⟩ (Or.inl rfl)
  | some inner =>
    cases hany : inner.isAny with
    | true =>
      obtain rfl := isAny_iff.mp hany
      refine iff_of_true ⟨.notOptionalType spec.display, ?_⟩ (Or.inr (Or.inl rfl))
      rw [optionalOf, hinner]
      rfl
    | false =>
      have hne : inner ≠ .any := fun h ↦ Bool.eq_false_iff.mp hany (isAny_iff.mpr h)
      rw [exists_error_of_optionalOf_of_resolve hinner hany]
      simp [hne]

end FieldType

/-- **An optional is its inner type with undefined and null.** Let an optional be declared by a
spec.

* This fails exactly if the spec stands for no type, or for the type of all values, or if a default
  that is not nullish is refused by the inner type.
* Otherwise the default is what the inner type reads from a default that is not nullish, null for
  null, and the inner type's default if none is given. The optional reads null as null and what is
  there as the inner type does. Undefined it reads as its default exactly if this is nullish or the
  inner type takes it. So it is if the default was given and tags are strict, and if the spec is
  reachable and no union inside gives its tag a default; once the default is numbered it is read as
  the very same records.
* Optionals within each other read what is there as the type inside them does. -/
theorem optionalOf_reads_optionally (spec : FieldSpec) (d : Value) :
    ((∃ e, FieldType.optionalOf spec d = .error e) ↔
      spec.resolve = none ∨ spec.resolve = some .any ∨
        ∃ inner e, spec.resolve = some inner ∧ d.isNullish = false ∧ inner.read d = .error e) ∧
    (∀ F, FieldType.optionalOf spec d = .ok F → ∃ inner d', spec.resolve = some inner ∧
      (d.isNullish = false → inner.read d = .ok d') ∧ (d = .null → d' = .null) ∧
      (d = .undefined → d' = inner.defaultValue) ∧
      F.defaultValue = d' ∧ F.ReadsOptionally inner d' ∧
      (∀ next, (F.settle next).1.defaultValue = (d'.settle next).1 ∧
        (F.settle next).1.ReadsOptionally inner (d'.settle next).1 ∧
        ∀ m, (d'.settle next).1.settle m = ((d'.settle next).1, m)) ∧
      (d.isNullish = false → inner.TagStrict → F.read .undefined = .ok d') ∧
      (Session.Reachable spec.part → inner.NoTagDefault → F.read .undefined = .ok d' ∧
        ∀ next, (F.settle next).1.read .undefined = .ok (d'.settle next).1)) ∧
    ∀ (G : FieldType) (ds : List Value) (v w : Value), v.isNullish = false →
      ((G.optionals ds).read v = .ok w ↔ G.read v = .ok w) := by
  refine ⟨FieldType.exists_error_of_optionalOf_iff, ?_, fun G ds v w ↦ G.read_optionals ds⟩
  intro F hF
  obtain ⟨inner, d', hinner, -, rfl, hnullish, hread⟩ := FieldType.optionalOf_eq_ok_iff.mp hF
  refine ⟨inner, d', hinner, hread, ?_, ?_, rfl, FieldType.readsOptionally_optional,
    fun next ↦ ⟨rfl, FieldType.readsOptionally_optional, d'.settle_settle next⟩, ?_, ?_⟩
  · rintro rfl
    exact hnullish rfl
  · rintro rfl
    exact hnullish rfl
  · intro hd hstrict
    refine FieldType.read_optional_of_orDefault rfl fun _ ↦ ?_
    exact FieldType.read_of_read hstrict (hread hd)
  · intro hspec hdefaults
    have hfits : (FieldType.optional inner d').DefaultFits :=
      FieldType.defaultFits_of_optionalOf (fun _ ↦ Session.defaultFits_of_resolve hspec) hF
    have htags : (Part.fieldType inner).Throughout Part.TagDeclared :=
      throughout_of_resolve (Session.tagDeclared_of_reachable hspec) hinner
    have hstrict := FieldType.tagStrict_of_noTagDefault htags hdefaults
    exact ⟨hfits.read_undefined hstrict, fun next ↦ (hfits.settle next).read_undefined hstrict⟩

/-! ## A shape that is a circle if it is not given -/

namespace Session

/-- The type of the shape in a drawing. -/
def figureType : FieldType := .union "kind" [("circle", circleType)] none

theorem fieldType_figure : (script drawingSteps).fieldType "Shape" = .ok figureType := rfl

/-- An optional shape with a circle by default reads undefined as this circle, and a shape as the
type of shapes does, also inside another optional. It cannot have a title for its default. -/
theorem optionalOf_reads_optionally_figure :
    (∃ e, FieldType.optionalOf (.type figureType) (.str "title") = .error e) ∧
    (∃ F, FieldType.optionalOf (.type figureType) (.map [("kind", .str "circle")]) = .ok F ∧
      (F.settle 3).1.read .undefined = .ok (.record circle)) ∧
    ((figureType.optionals [.null, .undefined]).read (.record circle) = .ok (.record circle)) := by
  have hfigure : Reachable (FieldSpec.type figureType).part :=
    reachable_of_fieldType fieldType_figure
  obtain ⟨hfails, -, -⟩ := optionalOf_reads_optionally (.type figureType) (.str "title")
  obtain ⟨-, hreads, hnested⟩ :=
    optionalOf_reads_optionally (.type figureType) (.map [("kind", .str "circle")])
  refine ⟨hfails.mpr (Or.inr (Or.inr ⟨figureType, _, rfl, rfl, rfl⟩)), ?_, ?_⟩
  · obtain ⟨F, hF⟩ : ∃ F, FieldType.optionalOf (.type figureType)
      (.map [("kind", .str "circle")]) = .ok F := ⟨_, rfl⟩
    obtain ⟨inner, d', hinner, hread, -, -, -, -, -, -, hundefined⟩ := hreads F hF
    obtain rfl : figureType = inner := Option.some.inj hinner
    obtain rfl : _ = d' := Except.ok.inj (hread rfl)
    refine ⟨F, hF, (hundefined hfigure fun T hT d hd ↦ ?_).2 3⟩
    rw [List.mem_singleton.mp hT] at hd
    cases hd
    rfl
  · exact (hnested figureType _ _ _ rfl).mpr rfl

end Session

/-! ## Defaults that are read as something else -/

namespace FieldType

/-- A type with an x. -/
def dotType : RecordType := ⟨0, some "Dot", [("x", .num none)], none, [("x", .field "x")]⟩

/-- An instance of a type without one. -/
def mark : Record :=
  ⟨⟨1, some "Mark", [("y", .any)], none, [("y", .field "y")]⟩, some 2, [("y", .undefined)], false⟩

/-- Dots that are given a mark for their default. -/
def markedDot : FieldType := .record dotType (some mark)

/-- A text has a body, a memo only has the kind of one. -/
def textOrMemo : FieldType :=
  .union "kind"
    [("text", ⟨0, some "Text", [("kind", .str none), ("body", .str none)], none,
      [("kind", .field "kind"), ("body", .field "body")]⟩)]
    (some ⟨1, some "Memo", [("kind", .str (some "text"))], none, [("kind", .field "kind")]⟩)

/-- An optional takes the mark over for its default, without a look at it, and then refuses
undefined. So it does with a memo, which was read but is not read again. -/
theorem foreign_default_refused :
    (markedDot.NoTagDefault ∧ ∃ F, optionalOf (.type markedDot) .undefined = .ok F ∧
      F.defaultValue = .record mark ∧ markedDot.takes (.record mark) = false ∧
        ∃ e, F.read .undefined = .error e) ∧
    ∃ F memo, optionalOf (.type textOrMemo) (.map [("kind", .undefined)]) = .ok F ∧
      textOrMemo.read (.map [("kind", .undefined)]) = .ok memo ∧ F.defaultValue = memo ∧
        ∃ e, F.read .undefined = .error e :=
  ⟨⟨trivial, _, rfl, rfl, rfl, _, rfl⟩, _, _, rfl, rfl, rfl, _, rfl⟩

end FieldType

end Schemata
