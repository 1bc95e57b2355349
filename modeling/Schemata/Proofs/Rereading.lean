import Schemata.Proofs.Sessions

/-!
# Reading what was read

A value that a field type has read is in the form that the field type gives, so reading it once more
should change nothing. For a record this means that it is not rebuilt but kept, storage and all.
The one thing in the way is a union whose record types fill in their own tag: what is built for one
tag may then say another. Where tags are strict, reading is idempotent.

The same holds of what is stored. Every field of a reachable record takes its own value back, so
building from a record and setting a field to itself copy the record.
-/

namespace Schemata

/-! ## Stored values -/

namespace FieldType

variable {F : FieldType} {v : Value}

theorem Holds.orDefault (h : F.Holds v) : F.orDefault v = v := by
  rw [FieldType.orDefault]
  split
  · have hv : v = .undefined := Value.isUndefined_iff.mp (by assumption)
    rw [h.defaultValue hv, hv]
  · rfl

/-- A field takes a stored value back. -/
theorem Holds.readField (h : F.Holds v) (hF : F.TagStrict) (key : String) :
    F.readField key v = .ok v :=
  readField_eq_ok_iff.mpr (by rw [h.orDefault, h.read hF])

end FieldType

namespace Record.WellTyped

variable {r : Record}

theorem readField_getD (h : r.WellTyped) {key : String} {F : FieldType}
    (hF : r.type.field? key = some F) (hstrict : F.TagStrict) :
    F.readField key (r.getD key) = .ok (r.getD key) :=
  (h.holds_getD hF).readField hstrict key

variable (h : r.WellTyped) (hkeys : (Entries.keys r.type.schema).Nodup)
include h hkeys

theorem readFields_eq (hstrict : ∀ f ∈ r.type.schema, f.2.TagStrict) :
    readFields r.type.schema (.record r) = .ok r.fields := by
  have hread : ∀ key F, r.type.field? key = some F → ∃ x,
      F.readField key (r.getD key) = .ok x ∧ r.get? key = some (id x) := by
    intro key F hF
    obtain ⟨v, hv, -⟩ := h.exists_holds hF
    have hself := h.readField_getD hF (hstrict (key, F) (Entries.mem_of_get?_eq_some hF))
    exact ⟨r.getD key, hself, by rw [id, getD, hv, Option.getD_some]⟩
  obtain ⟨fields, hfields, hmap⟩ := exists_readFields_eq (v := .record r) id h.keys_eq hkeys hread
  have hfields' : fields = r.fields := by
    rw [← hmap]
    exact (List.map_id fields).symm
  rw [hfields, hfields']

omit hkeys in
/-- Setting a field to its own value copies the record. -/
theorem set_getD {key : String} {F : FieldType} (hF : r.type.field? key = some F)
    (hstrict : F.TagStrict) : r.set key (r.getD key) = .ok { r with storage := none } := by
  obtain ⟨v, hv, -⟩ := h.exists_holds hF
  have hput : Entries.put r.fields key (r.getD key) = r.fields := by
    refine Entries.put_eq_self ?_
    rw [getD, hv, Option.getD_some]
    exact hv
  exact set_eq_ok_iff.mpr ⟨F, _, hF, h.readField_getD hF hstrict, by rw [hput]⟩

end Record.WellTyped

/-! ## Reading is idempotent -/

/-- **Rereading changes nothing** where tags are strict. A value that was read is kept by the next
read, also once its fresh records have numbers, so that they are the very same records. A reachable
record is copied by building from it and by setting any field to the value it has. -/
theorem reread_eq_of_tagStrict :
    (∀ (F : FieldType) (v w : Value), F.TagStrict → F.read v = .ok w →
      F.read w = .ok w ∧ ∀ next, F.read (w.settle next).1 = .ok (w.settle next).1 ∧
        ∀ m, (w.settle next).1.settle m = ((w.settle next).1, m)) ∧
      ∀ r : Record, Session.Reachable (.record r) → (∀ f ∈ r.type.schema, f.2.TagStrict) →
        r.type.construct (.record r) = .ok { r with storage := none, draft := false } ∧
          ∀ key ∈ Entries.keys r.type.schema,
            r.set key (r.getD key) = .ok { r with storage := none } := by
  constructor
  · intro F v w hF hw
    have hread := FieldType.read_of_read hF hw
    exact ⟨hread, fun next ↦ ⟨FieldType.read_settle hread next, w.settle_settle next⟩⟩
  · intro r hr hstrict
    obtain ⟨_, known, -, hsound⟩ := Session.exists_sound_of_reachable hr
    obtain ⟨htyped, htype, -⟩ := Part.sound_record.mp hsound
    have hkeys := (Part.sound_recordType.mp htype).1.2
    constructor
    · have hfields := htyped.readFields_eq hkeys hstrict
      exact RecordType.construct_eq_ok_iff.mpr
        ⟨Or.inr (Or.inr rfl), RecordType.build_eq_ok_iff.mpr ⟨r.fields, hfields, rfl⟩⟩
    · intro key hkey
      obtain ⟨F, hF⟩ := Option.isSome_iff_exists.mp (Entries.get?_isSome_iff.mpr hkey)
      exact htyped.set_getD hF (hstrict (key, F) (Entries.mem_of_get?_eq_some hF))

theorem reread_eq_of_tagStrict_drawing :
    (∃ w, (FieldType.union "kind" [("circle", Session.circleType)] none).read
        (.map [("kind", .str "circle")]) = .ok w ∧
      (FieldType.union "kind" [("circle", Session.circleType)] none).read (w.settle 0).1 =
        .ok (w.settle 0).1) ∧
      Session.drawingType.construct (.record Session.drawing) =
        .ok { Session.drawing with storage := none, draft := false } ∧
          Session.drawing.set "shape" (.record Session.circle) =
            .ok { Session.drawing with storage := none } := by
  have hunion : (FieldType.union "kind" [("circle", Session.circleType)] none).TagStrict := by
    intro T hT
    rw [List.mem_singleton.mp hT]
    rfl
  have hstrict : ∀ f ∈ Session.drawing.type.schema, f.2.TagStrict :=
    List.forall_mem_cons.mpr ⟨trivial, List.forall_mem_singleton.mpr hunion⟩
  have hkey : "shape" ∈ Entries.keys Session.drawing.type.schema := by decide
  have hreachable := Session.reachable_of_record Session.record_drawing
  obtain ⟨hread, hrecord⟩ := reread_eq_of_tagStrict
  obtain ⟨hconstruct, hset⟩ := hrecord Session.drawing hreachable hstrict
  exact ⟨⟨_, rfl, ((hread _ (.map [("kind", .str "circle")]) _ hunion rfl).2 0).1⟩, hconstruct,
    hset "shape" hkey⟩

end Schemata
