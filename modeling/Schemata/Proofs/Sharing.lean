import Mathlib.Logic.Function.Basic
import Schemata.Proofs.Sessions

/-!
# Shared storage

Two records with one storage number stand for one storage, so they should agree in what it holds. In
a session they do: a storage gets its contents when it is numbered and never changes them, and a
write makes a new storage instead.

A `Store` says what each storage holds. A record is *stored* (`Part.Stored`) if it has a number and
the store holds its type and fields there. Everything in a session is stored, for one store that
grows along the script (`Session.exists_stored_script`).

## Fresh records

What a read, a build or a write makes is not stored yet. Its fresh records have no number, and what
these hold may be fresh again. A record that does have a number came from the session, with all that
is in it. This is what `Part.StoredOrFresh` says, an invariant in the sense of `Part.Invariant`.
Settling turns it into being stored: it writes each fresh record to the store, under the next number
(`exists_grows_settle`).
-/

namespace Schemata

/-! ## Stores -/

/-- The record type and the fields that each storage holds, if it is in use. -/
abbrev Store := Nat → Option (RecordType × List (String × Value))

namespace Store

variable {σ τ υ : Store} {next mid rest : Nat}

/-- No storage from `next` on is in use. -/
def Below (σ : Store) (next : Nat) : Prop := ∀ i, next ≤ i → σ i = none

theorem Below.mono (h : σ.Below next) (hle : next ≤ rest) : σ.Below rest :=
  fun i hi ↦ h i (Nat.le_trans hle hi)

/-- From `σ` to `τ` storages from `next` on, up to `rest`, came into use. -/
structure Grows (σ τ : Store) (next rest : Nat) : Prop where
  agree : ∀ i, i < next → τ i = σ i
  below : τ.Below rest

theorem Grows.refl (h : σ.Below next) : σ.Grows σ next next := ⟨fun _ _ ↦ rfl, h⟩

theorem Grows.trans (h : σ.Grows τ next mid) (hle : next ≤ mid) (h' : τ.Grows υ mid rest) :
    σ.Grows υ next rest :=
  ⟨fun i hi ↦ (h'.agree i (Nat.lt_of_lt_of_le hi hle)).trans (h.agree i hi), h'.below⟩

/-- A number that is in use is below. -/
theorem Below.lt (h : σ.Below next) {i : Nat} {x : RecordType × List (String × Value)}
    (hx : σ i = some x) : i < next := by
  rcases Nat.lt_or_ge i next with hi | hi
  · exact hi
  · rw [h i hi] at hx
    cases hx

/-- What `σ` holds, `τ` holds too. -/
def Le (σ τ : Store) : Prop := ∀ i x, σ i = some x → τ i = some x

theorem Grows.le (h : σ.Grows τ next rest) (hσ : σ.Below next) : σ.Le τ :=
  fun i _ hx ↦ (h.agree i (hσ.lt hx)).trans hx

theorem le_update (h : σ next = none) (x : RecordType × List (String × Value)) :
    σ.Le (Function.update σ next (some x)) := by
  intro i y hy
  have hne : i ≠ next := by
    rintro rfl
    rw [h] at hy
    cases hy
  rw [Function.update_of_ne hne, hy]

/-- A storage that is put into use where none was. -/
theorem Grows.insert (h : σ.Grows τ (next + 1) rest) (hle : next < rest)
    (x : RecordType × List (String × Value)) :
    σ.Grows (Function.update τ next (some x)) next rest where
  agree i hi := by rw [Function.update_of_ne (Nat.ne_of_lt hi), h.agree i (Nat.lt_succ_of_lt hi)]
  below i hi := by
    rw [Function.update_of_ne (Nat.ne_of_gt (Nat.lt_of_lt_of_le hle hi)), h.below i hi]

end Store

variable {σ τ : Store} {next rest : Nat}

/-! ## Stored records -/

namespace Part

/-- A record has a number, under which the store holds its type and fields. -/
def Stored (σ : Store) : Part → Prop
  | record r => ∃ i, r.storage = some i ∧ σ i = some (r.type, r.fields)
  | _ => True

/-- A record that has a number is stored, with all that is in it; and so is what is in a record
type. -/
def StoredOrFresh (σ : Store) : Part → Prop
  | record r => r.storage.isSome = true → (record r).Throughout (Stored σ)
  | recordType T => (recordType T).Throughout (Stored σ)
  | _ => True

instance : Compositional (Stored σ) where
  flat _ := trivial
  list _ := trivial
  map _ := trivial
  record _ := trivial
  fieldType _ := trivial

instance : Invariant (StoredOrFresh σ) where
  flat _ := trivial
  list _ := trivial
  map _ := trivial
  record _ := trivial
  fieldType _ := trivial
  put _ _ _ := trivial
  -- What is built or written is fresh.
  build h := by
    obtain ⟨fields, -, rfl⟩ := RecordType.build_eq_ok_iff.mp h
    exact fun hfresh ↦ nomatch hfresh
  set _ h := by
    obtain ⟨F, x, -, -, rfl⟩ := Record.set_eq_ok_iff.mp h
    exact fun hfresh ↦ nomatch hfresh
  toDraft h hstorage := by
    obtain ⟨hself, hT, hfields⟩ := throughout_record.mp (h hstorage)
    exact throughout_record.mpr ⟨hself, hT, hfields⟩
  commit h hstorage := by
    obtain ⟨hself, hT, hfields⟩ := throughout_record.mp (h hstorage)
    exact throughout_record.mpr ⟨hself, hT, hfields⟩

theorem Throughout.storedOrFresh {p : Part} (h : p.Throughout (Stored σ)) :
    p.Throughout (StoredOrFresh σ) := by
  intro q hq
  cases q with
  | record r => exact fun _ ↦ h.of_within hq
  | recordType T => exact h.of_within hq
  | value | fieldType => trivial

theorem Throughout.stored_mono {p : Part} (h : p.Throughout (Stored σ)) (hle : σ.Le τ) :
    p.Throughout (Stored τ) := by
  refine h.imp fun q hq ↦ ?_
  cases q with
  | record r =>
    obtain ⟨i, hi, hstored⟩ := hq
    exact ⟨i, hi, hle i _ hstored⟩
  | value | recordType | fieldType => trivial

theorem Throughout.storedOrFresh_mono {p : Part} (h : p.Throughout (StoredOrFresh σ))
    (hle : σ.Le τ) : p.Throughout (StoredOrFresh τ) := by
  refine h.imp fun q hq ↦ ?_
  cases q with
  | record r => exact fun hstorage ↦ (hq hstorage).stored_mono hle
  | recordType T => exact hq.stored_mono hle
  | value | fieldType => trivial

end Part

open Schemata.Part

/-- **Stored records that are one agree** in type and fields. -/
theorem Record.eq_of_identical {q r : Record} (hq : Stored σ (.record q))
    (hr : Stored σ (.record r)) (h : q.identical r = true) :
    q.type = r.type ∧ q.fields = r.fields := by
  obtain ⟨i, hi, hσi⟩ := hq
  obtain ⟨j, hj, hσj⟩ := hr
  simp only [identical, Bool.and_eq_true, beq_iff_eq] at h
  have hij : i = j := by rw [← Option.some.injEq, ← hi, h.2, hj]
  subst hij
  exact Prod.mk.inj (Option.some.inj (hσi.symm.trans hσj))

/-- What is stored has no fresh records in it. -/
theorem Value.settle_of_stored {v : Value} (h : (value v).Throughout (Stored σ)) (next : Nat) :
    v.settle next = (v, next) := by
  induction v using Value.induction generalizing next with
  | flat v hv => exact settle_of_not_object hv next
  | list items ih =>
    rw [settle_list, settleItems_eq_self fun v hv n ↦ ih v hv ((throughout_list.mp h).2 v hv) n]
  | map entries ih =>
    rw [settle_map, settleEntries_eq_self fun e he n ↦ ih e he ((throughout_map.mp h).2 e he) n]
  | record r =>
    obtain ⟨i, hi, -⟩ := (throughout_value_record.mp h).2.self
    rw [settle_record, Record.settle_of_storage (Option.isSome_of_eq_some hi)]

/-- What is found along a path in a settled value is what was found there before, if that was
stored. -/
theorem Value.getIn?_settle_of_stored {v : Value} {path : List String}
    (h : ∀ w, v.getIn? path = some w → (value w).Throughout (Stored σ)) (next : Nat) :
    (v.settle next).1.getIn? path = v.getIn? path := by
  induction path generalizing v next with
  | nil => rw [settle_of_stored (h v rfl)]
  | cons key rest ih =>
    rw [getIn?, getIn?]
    rcases v.exists_get?_settle next key with ⟨n, hn⟩ | hsame
    · rw [hn]
      cases hw : v.get? key with
      | none => rfl
      | some w =>
        refine ih (fun x hx ↦ h x ?_) n
        rw [getIn?, hw]
        exact hx
    · rw [hsame]

theorem Record.getIn?_settle_of_stored {r : Record} {path : List String}
    (h : ∀ w, r.getIn? path = some w → (value w).Throughout (Stored σ)) (next : Nat) :
    (r.settle next).1.getIn? path = r.getIn? path := by
  cases path with
  | nil => rfl
  | cons key rest =>
    have h : ∀ w, (Value.record r).getIn? (key :: rest) = some w →
        (value w).Throughout (Stored σ) := h
    exact Value.getIn?_settle_of_stored h next

/-! ## Settling -/

/-- One more piece is settled before the others. -/
private theorem exists_grows_cons {mid : Nat} {first others : Store → Prop}
    (hle : next ≤ mid) (h : ∃ τ, σ.Grows τ next mid ∧ first τ)
    (h' : ∀ τ, σ.Grows τ next mid → ∃ υ, τ.Grows υ mid rest ∧ others υ)
    (hfirst : ∀ {τ υ}, τ.Below mid → τ.Grows υ mid rest → first τ → first υ) :
    ∃ υ, σ.Grows υ next rest ∧ first υ ∧ others υ := by
  obtain ⟨τ, hτ, hfirstτ⟩ := h
  obtain ⟨υ, hυ, hothers⟩ := h' τ hτ
  exact ⟨υ, hτ.trans hle hυ, hfirst hτ.below hυ hfirstτ, hothers⟩

private theorem exists_grows_settleItems {items : List Value}
    (h : ∀ v ∈ items, ∀ {σ : Store} {next : Nat}, σ.Below next →
      (value v).Throughout (StoredOrFresh σ) → ∃ τ, σ.Grows τ next (v.settle next).2 ∧
        (value (v.settle next).1).Throughout (Stored τ))
    (hσ : σ.Below next) (hitems : ∀ v ∈ items, (value v).Throughout (StoredOrFresh σ)) :
    ∃ τ, σ.Grows τ next (settleItems items next).2 ∧
      ∀ v ∈ (settleItems items next).1, (value v).Throughout (Stored τ) := by
  induction items generalizing σ next with
  | nil => exact ⟨σ, .refl hσ, List.forall_mem_nil _⟩
  | cons v others ih =>
    obtain ⟨hv, hothers⟩ := List.forall_mem_cons.mp hitems
    obtain ⟨hsettle, hsettles⟩ := List.forall_mem_cons.mp h
    rw [settleItems_cons]
    simp only [List.forall_mem_cons]
    refine exists_grows_cons (v.le_settle next) (hsettle hσ hv) (fun τ hτ ↦ ?_)
      fun hτ hυ hfirst ↦ hfirst.stored_mono (hυ.le hτ)
    exact ih hsettles hτ.below fun w hw ↦ (hothers w hw).storedOrFresh_mono (hτ.le hσ)

private theorem exists_grows_settleEntries {entries : List (String × Value)}
    (h : ∀ e ∈ entries, ∀ {σ : Store} {next : Nat}, σ.Below next →
      (value e.2).Throughout (StoredOrFresh σ) → ∃ τ, σ.Grows τ next (e.2.settle next).2 ∧
        (value (e.2.settle next).1).Throughout (Stored τ))
    (hσ : σ.Below next) (hentries : ∀ e ∈ entries, (value e.2).Throughout (StoredOrFresh σ)) :
    ∃ τ, σ.Grows τ next (settleEntries entries next).2 ∧
      ∀ e ∈ (settleEntries entries next).1, (value e.2).Throughout (Stored τ) := by
  induction entries generalizing σ next with
  | nil => exact ⟨σ, .refl hσ, List.forall_mem_nil _⟩
  | cons e others ih =>
    obtain ⟨hv, hothers⟩ := List.forall_mem_cons.mp hentries
    obtain ⟨hsettle, hsettles⟩ := List.forall_mem_cons.mp h
    rw [settleEntries_cons]
    simp only [List.forall_mem_cons]
    refine exists_grows_cons (e.2.le_settle next) (hsettle hσ hv) (fun τ hτ ↦ ?_)
      fun hτ hυ hfirst ↦ hfirst.stored_mono (hυ.le hτ)
    exact ih hsettles hτ.below fun w hw ↦ (hothers w hw).storedOrFresh_mono (hτ.le hσ)

/-- **Settling stores the fresh records** of a value, each under a number that was not in use. -/
theorem exists_grows_settle {v : Value} (hσ : σ.Below next)
    (hv : (value v).Throughout (StoredOrFresh σ)) :
    ∃ τ, σ.Grows τ next (v.settle next).2 ∧
      (value (v.settle next).1).Throughout (Stored τ) := by
  induction v using Value.induction generalizing σ next with
  | flat v h =>
    rw [Value.settle_of_not_object h]
    exact ⟨σ, .refl hσ, throughout_of_flat h⟩
  | list items ih =>
    obtain ⟨τ, hτ, hitems⟩ := exists_grows_settleItems ih hσ (throughout_list.mp hv).2
    exact ⟨τ, hτ, throughout_of_items hitems⟩
  | map entries ih =>
    obtain ⟨τ, hτ, hentries⟩ := exists_grows_settleEntries ih hσ (throughout_map.mp hv).2
    exact ⟨τ, hτ, throughout_map.mpr ⟨trivial, hentries⟩⟩
  | record r ih =>
    obtain ⟨hself, hT, hfields⟩ := throughout_record.mp (throughout_value_record.mp hv).2
    rw [Value.settle_record]
    cases hstorage : r.storage with
    | some i =>
      have hsome : r.storage.isSome = true := Option.isSome_of_eq_some hstorage
      rw [Record.settle_of_storage hsome]
      exact ⟨σ, .refl hσ, throughout_of_record (hself hsome)⟩
    | none =>
      -- The record takes the first number, and its fields are settled from the next one on.
      have hσ' : σ.Below (next + 1) := hσ.mono (Nat.le_succ next)
      obtain ⟨τ, hτ, hentries⟩ := exists_grows_settleEntries ih hσ' hfields
      have hle : next + 1 ≤ (settleEntries r.fields (next + 1)).2 :=
        (Value.map r.fields).le_settle (next + 1)
      have hfree : τ next = none := by
        rw [hτ.agree next (Nat.lt_succ_self next), hσ next (Nat.le_refl next)]
      have hυ := hτ.insert hle (r.type, (settleEntries r.fields (next + 1)).1)
      rw [Record.settle_of_fresh hstorage]
      refine ⟨_, hυ, throughout_of_record (throughout_record.mpr ⟨?_, ?_, ?_⟩)⟩
      · exact ⟨next, rfl, Function.update_self next _ τ⟩
      · exact hT.self.stored_mono (hυ.le hσ)
      · exact fun e he ↦ (hentries e he).stored_mono (Store.le_update hfree _)

/-- What is in a fresh record, once this is settled, is stored, and the number of the record itself
is not among those of the records in it. -/
theorem Record.exists_store_of_settle {r : Record} (hσ : σ.Below next) (hr : r.storage = none)
    (h : (record r).Throughout (StoredOrFresh σ)) :
    ∃ τ : Store, τ next = none ∧ ∀ p ∈ (Part.record (r.settle next).1).direct,
      p.Throughout (Stored τ) := by
  obtain ⟨-, hT, hfields⟩ := throughout_record.mp h
  have hσ' : σ.Below (next + 1) := hσ.mono (Nat.le_succ next)
  obtain ⟨τ, hτ, hentries⟩ := exists_grows_settleEntries
    (fun _ _ _ _ hσ hv ↦ exists_grows_settle hσ hv) hσ' hfields
  refine ⟨τ, ?_, ?_⟩
  · rw [hτ.agree next (Nat.lt_succ_self next), hσ next (Nat.le_refl next)]
  · rw [settle_of_fresh hr]
    refine List.forall_mem_append.mpr ⟨List.forall_mem_map.mpr hentries, ?_⟩
    exact List.forall_mem_singleton.mpr (hT.self.stored_mono (hτ.le hσ'))

/-! ## Sessions -/

namespace Session

variable {s : Session} {c : Command}

/-- A default that was just declared is stored or fresh, and the rest of the field type is
stored. -/
private theorem exists_grows_receiveFieldType {F : FieldType} (hσ : σ.Below s.supply)
    (hs : s.Everywhere (Stored σ)) (h : s.Describes c F) :
    ∃ τ, σ.Grows τ s.supply (F.settle s.supply).2 ∧
      (Part.fieldType (F.settle s.supply).1).Throughout (Stored τ) := by
  rcases hs.of_describes_cases h with hF | ⟨spec, d, hspec, hd, hF⟩
  · -- Nothing was made, so there is nothing to settle.
    have hsettle : F.settle s.supply = (F, s.supply) := by
      cases F with
      | optional inner d =>
        have hd := (throughout_fieldType_optional.mp hF).2.2
        rw [FieldType.settle, Value.settle_of_stored hd]
      | _ => rfl
    rw [hsettle]
    exact ⟨σ, .refl hσ, hF⟩
  · obtain ⟨inner, d', hinner, rfl, hd'⟩ := FieldType.optionalOf_eq_ok hF
    have hstored := throughout_of_resolve hspec hinner
    have hfresh : (Part.value d').Throughout (StoredOrFresh σ) := by
      rcases hd' with rfl | rfl | hread
      · exact throughout_defaultValue hstored.storedOrFresh
      · exact hd.storedOrFresh
      · exact throughout_of_read hstored.storedOrFresh hd.storedOrFresh hread
    obtain ⟨τ, hτ, hd'⟩ := exists_grows_settle hσ hfresh
    refine ⟨τ, hτ, throughout_fieldType_optional.mpr ⟨trivial, ?_, hd'⟩⟩
    exact hstored.stored_mono (hτ.le hσ)

/-- **A command keeps everything stored.** -/
theorem exists_grows_of_performs {out : Session × Outcome} (hσ : σ.Below s.supply)
    (hs : s.Everywhere (Stored σ)) (h : s.Performs c out) :
    ∃ τ, σ.Grows τ s.supply out.1.supply ∧ out.1.Everywhere (Stored τ) ∧
      ∀ q ∈ out.2.parts, q.Throughout (Stored τ) := by
  have hs' : s.Everywhere (StoredOrFresh σ) := hs.imp fun _ hp ↦ hp.storedOrFresh
  have hgrow {τ : Store} {rest : Nat} (hτ : σ.Grows τ s.supply rest) : s.Everywhere (Stored τ) :=
    hs.imp fun _ hp ↦ hp.stored_mono (hτ.le hσ)
  cases h with
  | declares h =>
    refine ⟨σ, ⟨fun _ _ ↦ rfl, hσ.mono (Nat.le_succ _)⟩, ⟨hs.types, hs.fieldTypes, hs.values⟩, ?_⟩
    exact List.forall_mem_singleton.mpr (hs.of_declares h trivial)
  | describes h =>
    obtain ⟨τ, hτ, hF⟩ := exists_grows_receiveFieldType hσ hs h
    have hsτ := hgrow hτ
    exact ⟨τ, hτ, ⟨hsτ.types, hsτ.fieldTypes, hsτ.values⟩, List.forall_mem_singleton.mpr hF⟩
  | yields h =>
    obtain ⟨τ, hτ, hv⟩ := exists_grows_settle hσ (hs'.of_yields h)
    have hsτ := hgrow hτ
    exact ⟨τ, hτ, ⟨hsτ.types, hsτ.fieldTypes, hsτ.values⟩, List.forall_mem_singleton.mpr hv⟩
  | rewrites h =>
    obtain ⟨τ, hτ, hr⟩ := exists_grows_settle hσ (throughout_of_record (hs'.of_rewrites h))
    have hsτ := hgrow hτ
    exact ⟨τ, hτ, ⟨hsτ.types, hsτ.fieldTypes, throughout_of_mem_put hsτ.values hr⟩,
      List.forall_mem_singleton.mpr hr⟩
  | nothing => exact ⟨σ, .refl hσ, hs, List.forall_mem_nil _⟩

theorem exists_grows_of_run {s' : Session} {step : Step} {out : Outcome} (hσ : σ.Below s.supply)
    (hs : s.Everywhere (Stored σ)) (h : s.run step = .ok (s', out)) :
    ∃ τ, σ.Grows τ s.supply s'.supply ∧ s'.Everywhere (Stored τ) ∧
      ∀ q ∈ out.parts, q.Throughout (Stored τ) := by
  obtain ⟨s₁, hperform, hbinding⟩ := perform_of_run h
  obtain ⟨τ, hτ, hs₁, hout⟩ := exists_grows_of_performs hσ hs (performs_of_perform hperform)
  rcases hbinding with ⟨-, rfl⟩ | ⟨name, -, rfl⟩
  · exact ⟨τ, hτ, hs₁, hout⟩
  · exact ⟨τ, by rwa [supply_keep], hs₁.keep hout name, hout⟩

/-- **Everything in a session is stored**, after every script. -/
theorem exists_stored_script (steps : List Step) :
    ∃ σ : Store, σ.Below (script steps).supply ∧ (script steps).Everywhere (Stored σ) := by
  refine script_induction (P := fun s ↦ ∃ σ : Store, σ.Below s.supply ∧
    s.Everywhere (Stored σ)) ?_ ?_ steps
  · exact ⟨fun _ ↦ none, fun _ _ ↦ rfl, everywhere_empty⟩
  · rintro s s' step out ⟨σ, hσ, hs⟩ hrun
    obtain ⟨τ, hτ, hs', -⟩ := exists_grows_of_run hσ hs hrun
    exact ⟨τ, hτ.below, hs'⟩

/-- Everything reachable is stored. -/
theorem exists_stored_of_reachable {p : Part} (h : Reachable p) :
    ∃ σ : Store, p.Throughout (Stored σ) := by
  cases h with
  | @bound steps q hq hp =>
    obtain ⟨σ, -, hs⟩ := exists_stored_script steps
    exact ⟨σ, Throughout.of_within (hs.of_mem_parts hq) hp⟩
  | @given steps step s out q hrun hq hp =>
    obtain ⟨σ, hσ, hs⟩ := exists_stored_script steps
    obtain ⟨τ, -, -, hout⟩ := exists_grows_of_run hσ hs hrun
    exact ⟨τ, (hout q hq).of_within hp⟩

end Session

end Schemata
