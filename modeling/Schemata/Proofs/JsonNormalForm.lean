import Schemata.Proofs.PlainValues
import Schemata.Proofs.Upcasting

/-!
# JSON as a normal form

A value that a session can lead to comes back from JSON in its normal form (`Value.normal`), and a
plain value comes back as it is. What comes back is plain, and its maps hold no key twice. So going
through JSON a second time changes nothing.

That no map holds a key twice is all that has to be said of a plain value from elsewhere
(`Value.DistinctKeys`). The maps of a session are built so, and a plain value has no other parts
that could be out of order.
-/

namespace Schemata

open Schemata.Part

/-! ## Distinct keys -/

namespace Value

variable {known : RecordType → Prop} {v w : Value}

/-- No map in the value holds a key twice. -/
def DistinctKeys (v : Value) : Prop :=
  ∀ entries, (Part.value (.map entries)).NestedIn (.value v) → (Entries.keys entries).Nodup

theorem DistinctKeys.of_mem_nested (hv : v.DistinctKeys)
    (h : Part.value w ∈ (Part.value v).nested) : w.DistinctKeys :=
  fun entries hnested ↦ hv entries (hnested.trans (nestedIn_of_mem_nested h))

theorem distinctKeys_of_sound (h : (value v).Sound known) : v.DistinctKeys :=
  fun _ hnested ↦ h _ hnested.within

/-- In a plain value there is nothing else that could be out of order. -/
theorem sound_of_plain (hplain : v.Plain) (hv : v.DistinctKeys) : (value v).Sound known := by
  induction hplain with
  | null | bool | num | str => exact throughout_of_flat rfl
  | list _ ih =>
    exact sound_list.mpr fun v hmem ↦
      ih v hmem (hv.of_mem_nested (List.mem_map_of_mem hmem))
  | @map entries _ ih =>
    refine sound_map.mpr ⟨hv entries (NestedIn.refl _), fun e hmem ↦ ih e hmem ?_⟩
    exact hv.of_mem_nested (List.mem_map_of_mem (f := fun e ↦ Part.value e.2) hmem)

end Value

/-! ## Normalisation -/

namespace Session

/-- **JSON is exact on plain values and a normal form for all.** A plain value comes back from JSON
as it is, with its keys in order. Any value that a session can lead to comes back in its normal
form, which is plain and holds no key twice, so that it comes back from JSON as it is. In it a
record, at whatever depth, is the map of those of its fields that are there, in the order of its
schema. -/
theorem json_normal_form :
    (∀ v : Value, v.Plain → v.DistinctKeys → v.toJson.toValue = v) ∧
    ∀ v : Value, Reachable (.value v) →
      v.toJson.toValue = v.normal ∧ v.normal.Plain ∧ v.normal.DistinctKeys ∧
      v.toJson.toValue.toJson.toValue = v.toJson.toValue ∧
      ∀ r : Record, (Part.record r).Within (.value v) →
        (Value.record r).normal = .map (((r.restrict r.type).filter (!·.2.isUndefined)).map
          fun e ↦ (e.1, e.2.normal)) := by
  have hexact (v : Value) (hplain : v.Plain) (hv : v.DistinctKeys) : v.toJson.toValue = v := by
    -- A plain value refers to no record types, so any will do as the known ones.
    have hsound : (Part.value v).Sound fun _ ↦ True := Value.sound_of_plain hplain hv
    exact Value.toValue_toJson_of_plain hplain hsound
  refine ⟨hexact, fun v hv ↦ ?_⟩
  obtain ⟨_, known, -, hsound⟩ := exists_sound_of_reachable hv
  have hnormal := Value.toValue_toJson hsound
  have hread : (Part.value v.toJson.toValue).Sound known := throughout_toValue v.toJson
  have hdistinct := Value.distinctKeys_of_sound hread
  refine ⟨hnormal, v.plain_normal, hnormal ▸ hdistinct, ?_, fun r hr ↦ ?_⟩
  · exact hexact _ (hnormal ▸ v.plain_normal) hdistinct
  · obtain ⟨htyped, hnodup⟩ := wellTyped_of_reachable (hv.of_within hr)
    rw [Record.restrict_eq (List.append_nil _).symm htyped.keys_eq hnodup, Value.normal_record,
      normalEntries_eq_map]

/-- A page with the drawing, next to what JSON has no word for, and a plain caption. -/
def pageStep : Step :=
  ⟨.value (.list [.undefined, .num .nan, .map [("note", .undefined), ("drawing", .name "drawing")],
    .map [("size", .num (.ofInt 3)), ("caption", .str "circle")]]), some "page"⟩

def caption : Value := .map [("size", .num (.ofInt 3)), ("caption", .str "circle")]

def page : Value :=
  .list [.undefined, .num .nan, .map [("note", .undefined), ("drawing", .record drawing)], caption]

/-- The title of the drawing, which is absent, goes with the note. Of what is absent elsewhere null
stays, and of the records the maps of their fields. The caption stays as it is. -/
theorem json_normal_form_page :
    caption.toJson.toValue = caption ∧
      page.toJson.toValue = .list [.null, .null, .map [("drawing", .map [("shape",
        .map [("kind", .str "circle"), ("filled", .bool false)])])], caption] ∧
      page.toJson.toValue.Plain ∧ page.toJson.toValue.toJson.toValue = page.toJson.toValue := by
  have hpage : (script (drawingSteps ++ [pageStep])).value "page" = .ok page := rfl
  have hplain : caption.Plain :=
    .map (List.forall_mem_cons.mpr ⟨.num (by decide), List.forall_mem_singleton.mpr (.str _)⟩)
  have hsound : (Part.value caption).Sound fun _ ↦ True :=
    sound_map.mpr ⟨by decide, List.forall_mem_cons.mpr
      ⟨throughout_of_flat rfl, List.forall_mem_singleton.mpr (throughout_of_flat rfl)⟩⟩
  obtain ⟨hexact, hreachable⟩ := json_normal_form
  obtain ⟨hnormal, hpageplain, -, htwice, -⟩ := hreachable page (reachable_of_value hpage)
  exact ⟨hexact caption hplain (Value.distinctKeys_of_sound hsound), hnormal.trans rfl,
    hnormal ▸ hpageplain, htwice⟩

end Session

end Schemata
