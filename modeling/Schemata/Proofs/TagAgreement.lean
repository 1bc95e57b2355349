import Schemata.Proofs.Declarations

/-!
# Tags of what a union reads

A union selects a record type by the tag of the value that it reads, and what it gives carries a tag
of its own. The two should never disagree: the tag of what was read should select the type that it
has. Then reading it again keeps it (`FieldType.read_union_eq_self_iff`).

A value that is kept has the tag by which it was selected, and a record that is built has it too, as
long as there was a tag to build from. The exception is a tag that is there and undefined. It is
taken for the text `undefined`, and in the record that is built the declared default stands in its
place, which may be the tag of another type. `Value.Misread` is exactly this case.
-/

namespace Schemata

namespace Value

/-- The text of the value's own tag selects a record type that the value is an instance of. -/
def AgreesWithTag (tag : String) (branches : List (String × RecordType))
    (fallback : Option RecordType) (w : Value) : Prop :=
  ∃ t T, w.get? tag = some t ∧ RecordType.select? branches fallback t.display = some T ∧
    w.isInstanceOf T = true

/-- The tag is undefined; the text `undefined` selects a type that the value has to be converted to;
and that type fills the tag with a default which does not select the type or one above it. -/
def Misread (tag : String) (branches : List (String × RecordType)) (fallback : Option RecordType)
    (v : Value) : Prop :=
  v.get? tag = some .undefined ∧ ∃ T s, RecordType.select? branches fallback "undefined" = some T ∧
    v.isInstanceOf T = false ∧ T.field? tag = some (.str (some s)) ∧
      ∀ S, RecordType.select? branches fallback s = some S → T.isSubtypeOf S = false

end Value

namespace FieldType

variable {tag : String} {branches : List (String × RecordType)} {fallback : Option RecordType}
  {v w : Value}

theorem not_misread_of_isInstanceOf {t : Value} {T : RecordType} (ht : v.get? tag = some t)
    (hT : RecordType.select? branches fallback t.display = some T)
    (hinst : v.isInstanceOf T = true) : ¬v.Misread tag branches fallback := by
  rintro ⟨hundefined, S, s, hS, hnot, -⟩
  obtain rfl : t = .undefined := Option.some.inj (ht.symm.trans hundefined)
  obtain rfl : T = S := Option.some.inj (hT.symm.trans hS)
  rw [hinst] at hnot
  cases hnot

/-- A record that is built agrees with its tag unless the value that it is built from is misread. -/
theorem agreesWithTag_iff_of_build {t : Value} {T : RecordType} {d : Option String} {r : Record}
    (ht : v.get? tag = some t) (hT : RecordType.select? branches fallback t.display = some T)
    (hnot : v.isInstanceOf T = false) (htag : T.field? tag = some (.str d))
    (hr : T.build v = .ok r) :
    (Value.record r).AgreesWithTag tag branches fallback ↔ ¬v.Misread tag branches fallback := by
  have htype : r.type = T := RecordType.type_of_build hr
  obtain ⟨s, hs, hv | ⟨hundefined, rfl⟩⟩ := get?_tag_of_build htag hr
  · -- The tag that the record was built from is its own.
    obtain rfl : t = .str s := Option.some.inj (ht.symm.trans hv)
    have hinst : (Value.record r).isInstanceOf T = true := htype ▸ r.isInstanceOf_type
    refine iff_of_true ⟨.str s, T, hs, hT, hinst⟩ ?_
    rintro ⟨hundefined, -⟩
    rw [hv] at hundefined
    cases hundefined
  · -- The tag was filled in, so the default decides.
    have hget : v.get? tag = some .undefined := by
      rw [Value.getD, ht, Option.getD_some] at hundefined
      rw [ht, hundefined]
    obtain rfl : t = .undefined := Option.some.inj (ht.symm.trans hget)
    constructor
    · rintro ⟨t', S, ht', hS, hinst⟩ ⟨-, T', s', hT', -, htag', hall⟩
      obtain rfl : t' = .str s := Option.some.inj (ht'.symm.trans hs)
      obtain rfl : T = T' := Option.some.inj (hT.symm.trans hT')
      obtain rfl : s = s' := by
        rw [htag, Option.some.injEq, str.injEq, Option.some.injEq] at htag'
        exact htag'
      have hsub : T.isSubtypeOf S = true := htype ▸ hinst
      rw [hall S hS] at hsub
      cases hsub
    · intro hmisread
      by_cases hsome : ∃ S, RecordType.select? branches fallback s = some S ∧
          T.isSubtypeOf S = true
      · obtain ⟨S, hS, hsub⟩ := hsome
        rw [← htype] at hsub
        exact ⟨.str s, S, hs, hS, hsub⟩
      · refine absurd ⟨hget, T, s, hT, hnot, htag, fun S hS ↦ ?_⟩ hmisread
        rw [Bool.eq_false_iff]
        exact fun hsub ↦ hsome ⟨S, hS, hsub⟩

/-- **When the tag of what was read agrees with its type.** What a declared union reads is a record
with the tag. It agrees with that tag, which means that reading keeps it, unless the value that was
read is misread. -/
theorem agreesWithTag_iff_of_read {specs : List (String × FieldSpec)}
    {fallbackSpec : Option FieldSpec}
    (hd : unionOf tag specs fallbackSpec = .ok (.union tag branches fallback))
    (h : (union tag branches fallback).read v = .ok w) :
    (∃ r, w = .record r) ∧ (∃ t, w.get? tag = some t) ∧
      (w.AgreesWithTag tag branches fallback ↔ (union tag branches fallback).read w = .ok w) ∧
        (w.AgreesWithTag tag branches fallback ↔ ¬v.Misread tag branches fallback) := by
  obtain ⟨t, T, ht, hT, hconvert⟩ := read_union_eq_ok_iff.mp h
  obtain ⟨-, hstr⟩ := field?_tag_of_unionOf hd
  obtain ⟨d, htag⟩ := hstr T (RecordType.mem_candidates_of_select? hT)
  have hrecord : ∃ r, w = .record r :=
    Value.exists_record_of_isInstanceOf (RecordType.isInstanceOf_of_convert hconvert)
  rw [RecordType.convert_eq_ok_iff] at hconvert
  split at hconvert
  · rename_i hinst
    subst hconvert
    refine ⟨hrecord, ⟨t, ht⟩, read_union_eq_self_iff.symm, ?_⟩
    exact iff_of_true ⟨t, T, ht, hT, hinst⟩ (not_misread_of_isInstanceOf ht hT hinst)
  · rename_i hnot
    obtain ⟨r, hr, rfl⟩ := hconvert
    obtain ⟨s, hs, -⟩ := get?_tag_of_build htag hr
    refine ⟨hrecord, ⟨.str s, hs⟩, read_union_eq_self_iff.symm, ?_⟩
    exact agreesWithTag_iff_of_build ht hT (Bool.eq_false_iff.mpr hnot) htag hr

/-! ## A default that is the tag of a branch -/

/-- A type with a tag and nothing else. -/
def taggedType (id : Nat) (label : String) (d : Option String) : RecordType :=
  ⟨id, some label, [("kind", .str d)], none, [("kind", .field "kind")]⟩

/-- Text, or else a note whose kind, if it is not given, is that of a text. -/
def textOrNote : FieldType :=
  .union "kind" [("text", taggedType 0 "Text" none)] (some (taggedType 1 "Note" (some "text")))

theorem unionOf_textOrNote :
    unionOf "kind" [("text", .type (.record (taggedType 0 "Text" none) none))]
      (some (.type (.record (taggedType 1 "Note" (some "text")) none))) = .ok textOrNote := rfl

theorem agreesWithTag_text : ∃ w, textOrNote.read (.map [("kind", .str "text")]) = .ok w ∧
    textOrNote.read w = .ok w := by
  obtain ⟨w, hw⟩ : ∃ w, textOrNote.read (.map [("kind", .str "text")]) = .ok w := ⟨_, rfl⟩
  obtain ⟨-, -, hread, hagrees⟩ := agreesWithTag_iff_of_read unionOf_textOrNote hw
  refine ⟨w, hw, hread.mp (hagrees.mpr ?_)⟩
  rintro ⟨hundefined, -⟩
  cases hundefined

/-- A note that is read with an undefined kind says that it is a text, and becomes one when it is
read again. -/
theorem note_read_as_text :
    unionOf "kind" [("text", .type (.record (taggedType 0 "Text" none) none))]
        (some (.type (.record (taggedType 1 "Note" (some "text")) none))) = .ok textOrNote ∧
      ∃ w w', textOrNote.read (.map [("kind", .undefined)]) = .ok w ∧
        w.isInstanceOf (taggedType 1 "Note" (some "text")) = true ∧
          w.get? "kind" = some (.str "text") ∧
            ¬w.AgreesWithTag "kind" [("text", taggedType 0 "Text" none)]
              (some (taggedType 1 "Note" (some "text"))) ∧
              textOrNote.read w = .ok w' ∧
                w'.isInstanceOf (taggedType 1 "Note" (some "text")) = false := by
  refine ⟨unionOf_textOrNote, _, _, rfl, rfl, rfl, ?_, rfl, rfl⟩
  rintro ⟨t, T, ht, hT, hinst⟩
  obtain rfl : Value.str "text" = t := Option.some.inj ht
  obtain rfl : taggedType 0 "Text" none = T := Option.some.inj hT
  cases hinst

end FieldType

end Schemata
