import Schemata.Proofs.Commands

/-!
# Everything in a session is sound

A session starts out empty and takes in, step after step, what its commands make from what it holds.
So an invariant of single parts becomes one of sessions: a command keeps it
(`Session.Everywhere.of_performs`), a step keeps it (`Session.Everywhere.of_run`), and it is true of
everything that a script can lead to (`Session.throughout_of_reachable`).

## Known record types

The record types that a session has declared are told apart by their numbers, each of them below the
supply (`Session.Registry`). A declaration takes the next number and adds one type. The registry is
what soundness means by a known record type, and it is why a test of identity between two record
types of a session decides whether they are equal. It grows along a script, so soundness needs an
induction of its own.

## Reachable parts

A part is `Session.Reachable` if it occurs in something that a script binds to a name, or in what
one more step gives. `Session.exists_sound_of_reachable` is the invariant in the form in which the
properties of sessions use it.
-/

namespace Schemata

open Schemata.Part

variable {known : RecordType → Prop} {ok : Part → Prop}

/-- What an outcome consists of. -/
def Outcome.parts : Outcome → List Part
  | .recordType T => [.recordType T]
  | .fieldType F => [.fieldType F]
  | .value v => [.value v]
  | .nothing => []

namespace Session

/-- What the session binds names to. -/
def parts (s : Session) : List Part :=
  s.types.map (fun e ↦ .recordType e.2) ++ s.fieldTypes.map (fun e ↦ .fieldType e.2) ++
    s.values.map fun e ↦ .value e.2

/-- A part that some script can lead to. -/
inductive Reachable (p : Part) : Prop where
  /-- It occurs in what a script binds to a name. -/
  | bound {steps : List Step} {q : Part} : q ∈ (script steps).parts → p.Within q → Reachable p
  /-- It occurs in what a step after a script gives. -/
  | given {steps : List Step} {step : Step} {s : Session} {out : Outcome} {q : Part} :
    (script steps).run step = .ok (s, out) → q ∈ out.parts → p.Within q → Reachable p

theorem Reachable.of_within {p q : Part} (hq : Reachable q) (h : p.Within q) : Reachable p := by
  cases hq with
  | bound hmem hq => exact .bound hmem (h.trans hq)
  | given hrun hmem hq => exact .given hrun hmem (h.trans hq)

variable {s : Session} {c : Command}

theorem Everywhere.of_mem_parts (hs : s.Everywhere ok) {p : Part} (hp : p ∈ s.parts) :
    p.Throughout ok := by
  rcases List.mem_append.mp hp with hp | hp
  · rcases List.mem_append.mp hp with hp | hp
    · obtain ⟨e, he, rfl⟩ := List.mem_map.mp hp
      exact hs.types e he
    · obtain ⟨e, he, rfl⟩ := List.mem_map.mp hp
      exact hs.fieldTypes e he
  · obtain ⟨e, he, rfl⟩ := List.mem_map.mp hp
    exact hs.values e he

/-! ## Steps -/

/-- **A command keeps an invariant that does not look at storage**, if the record type that it
declares has it. -/
theorem Everywhere.of_performs [Storageless ok] {out : Session × Outcome} (hs : s.Everywhere ok)
    (h : s.Performs c out)
    (hT : ∀ T, s.Declares c T → out.2 = .recordType T → ok (.recordType T)) :
    out.1.Everywhere ok ∧ ∀ q ∈ out.2.parts, q.Throughout ok := by
  cases h with
  | @declares T h =>
    exact ⟨⟨hs.types, hs.fieldTypes, hs.values⟩,
      List.forall_mem_singleton.mpr (hs.of_declares h (hT T h rfl))⟩
  | describes h =>
    exact ⟨⟨hs.types, hs.fieldTypes, hs.values⟩,
      List.forall_mem_singleton.mpr (throughout_fieldType_settle (hs.of_describes h) _)⟩
  | yields h =>
    exact ⟨⟨hs.types, hs.fieldTypes, hs.values⟩,
      List.forall_mem_singleton.mpr (throughout_settle (hs.of_yields h) _)⟩
  | rewrites h =>
    have hr := throughout_settle (throughout_of_record (hs.of_rewrites h)) s.supply
    exact ⟨⟨hs.types, hs.fieldTypes, throughout_of_mem_put hs.values hr⟩,
      List.forall_mem_singleton.mpr hr⟩
  | nothing => exact ⟨hs, List.forall_mem_nil _⟩

/-- Binding a result to a name keeps the other bindings. -/
theorem Everywhere.keep (hs : s.Everywhere ok) {out : Outcome}
    (hout : ∀ q ∈ out.parts, q.Throughout ok) (name : String) :
    (s.keep name out).Everywhere ok := by
  cases out with
  | recordType T =>
    refine ⟨fun e he ↦ ?_, hs.fieldTypes, hs.values⟩
    rcases Entries.mem_put he with he | rfl
    · exact hs.types e he
    · exact List.forall_mem_singleton.mp hout
  | fieldType F =>
    refine ⟨hs.types, fun e he ↦ ?_, hs.values⟩
    rcases Entries.mem_put he with he | rfl
    · exact hs.fieldTypes e he
    · exact List.forall_mem_singleton.mp hout
  | value v =>
    exact ⟨hs.types, hs.fieldTypes,
      throughout_of_mem_put hs.values (List.forall_mem_singleton.mp hout)⟩
  | nothing => exact hs

theorem supply_keep (s : Session) (name : String) (out : Outcome) :
    (s.keep name out).supply = s.supply := by
  cases out <;> rfl

theorem Everywhere.of_run [Storageless ok] {s' : Session} {step : Step} {out : Outcome}
    (hs : s.Everywhere ok) (h : s.run step = .ok (s', out))
    (hT : ∀ T, s.Declares step.command T → out = .recordType T → ok (.recordType T)) :
    s'.Everywhere ok ∧ ∀ q ∈ out.parts, q.Throughout ok := by
  obtain ⟨s₁, hperform, hbinding⟩ := perform_of_run h
  obtain ⟨hs₁, hout⟩ := hs.of_performs (performs_of_perform hperform) hT
  rcases hbinding with ⟨-, rfl⟩ | ⟨name, -, rfl⟩
  · exact ⟨hs₁, hout⟩
  · exact ⟨hs₁.keep hout name, hout⟩

/-- **An invariant that looks neither at storage nor at record types** is true of everything
reachable. -/
theorem throughout_of_reachable [Storageless ok] (hok : ∀ T, ok (.recordType T)) {p : Part}
    (h : Reachable p) : p.Throughout ok := by
  have hscript (steps : List Step) : (script steps).Everywhere ok :=
    script_induction everywhere_empty (fun hs hrun ↦ (hs.of_run hrun fun T _ _ ↦ hok T).1) steps
  cases h with
  | bound hq hp => exact Throughout.of_within ((hscript _).of_mem_parts hq) hp
  | given hrun hq hp =>
    exact Throughout.of_within (((hscript _).of_run hrun fun T _ _ ↦ hok T).2 _ hq) hp

/-- Every reachable union declares its tag in each of its record types. -/
theorem tagDeclared_of_reachable {p : Part} (h : Reachable p) : p.Throughout TagDeclared :=
  throughout_of_reachable (fun _ ↦ trivial) h

/-! ## The registry -/

/-- The record types of `known` have numbers below the supply, no two of them the same. -/
structure Registry (supply : Nat) (known : RecordType → Prop) : Prop where
  lt : ∀ {T}, known T → T.id < supply
  eq_of_identical : ∀ {S T}, known S → known T → S.identical T = true → S = T

theorem Registry.mono {n m : Nat} (h : Registry n known) (hle : n ≤ m) : Registry m known where
  lt hT := Nat.lt_of_lt_of_le (h.lt hT) hle
  eq_of_identical := h.eq_of_identical

/-- A smaller registry. -/
theorem Registry.anti {known' : RecordType → Prop} {n : Nat} (h : Registry n known)
    (himp : ∀ T, known' T → known T) : Registry n known' where
  lt hT := h.lt (himp _ hT)
  eq_of_identical hS hT := h.eq_of_identical (himp _ hS) (himp _ hT)

/-- A record type with the next number is told apart from all known ones. -/
theorem Registry.insert {n : Nat} (h : Registry n known) {T : RecordType} (hT : T.id = n) :
    Registry (n + 1) fun S ↦ known S ∨ S = T where
  lt := by
    rintro S (hS | rfl)
    · exact Nat.lt_succ_of_lt (h.lt hS)
    · exact hT ▸ Nat.lt_succ_self S.id
  eq_of_identical := by
    intro R S hR hS hid
    rw [RecordType.identical, beq_iff_eq] at hid
    rcases hR with hR | rfl <;> rcases hS with hS | rfl
    · exact h.eq_of_identical hR hS (by simp [RecordType.identical, hid])
    · have := h.lt hR
      omega
    · have := h.lt hS
      omega
    · rfl

/-- What is registered after a command is what was registered before and the record type that the
command declares, if it declares one. -/
theorem Registry.of_performs {out : Session × Outcome} (hreg : Registry s.supply known)
    (h : s.Performs c out) :
    Registry out.1.supply fun T ↦ known T ∨ out.2 = .recordType T := by
  have hold {supply : Nat} {out : Outcome} (hle : s.supply ≤ supply)
      (hout : ∀ T, out ≠ .recordType T) : Registry supply fun T ↦ known T ∨ out = .recordType T :=
    (hreg.mono hle).anti fun T hT ↦ hT.resolve_right (hout T)
  cases h with
  | @declares T hT =>
    -- The supply is the number of the new type, and no known type has it.
    refine (hreg.insert (id_of_declares hT)).anti fun S hS ↦ hS.imp_right ?_
    exact fun heq ↦ (Outcome.recordType.inj heq).symm
  | @describes F => exact hold (F.le_settle _) nofun
  | @yields v => exact hold (v.le_settle _) nofun
  | @rewrites _ r => exact hold ((Value.record r).le_settle s.supply) nofun
  | nothing => exact hold (Nat.le_refl _) nofun

/-- The schema that a command declares holds no key twice. -/
theorem nodup_keys_of_declares {T : RecordType} (hs : s.Everywhere (Regular known))
    (h : s.Declares c T) : (Entries.keys T.schema).Nodup := by
  have hbase {B : RecordType} (hB : (Part.recordType B).Sound known) :
      (Entries.keys B.schema).Nodup := (sound_recordType.mp hB).1.2
  cases h with
  | declare hes h => exact RecordType.nodup_keys_of_declare (nodup_keys_of_evalFields hes) h
  | extend hB _ h => exact RecordType.nodup_keys_of_extend (hbase (hs.of_type hB)) h
  | extendSpec hspec _ h =>
    obtain ⟨B, hB, h⟩ := RecordType.exists_extend_of_extendSpec h
    exact RecordType.nodup_keys_of_extend
      (hbase (throughout_of_recordType? (hs.of_evalSpec hspec) hB)) h
  | @relabel _ B _ hB => exact hbase (B := B) (hs.of_type hB)
  | derive _ hes hschema =>
    rw [RecordType.derived, keys_of_resolveFields hschema]
    exact nodup_keys_of_evalFields hes

/-- **A step preserves soundness**, once the record type that it declares is known. -/
theorem sound_of_run {s' : Session} {step : Step} {out : Outcome} (hreg : Registry s.supply known)
    (hs : s.Everywhere (Regular known)) (h : s.run step = .ok (s', out)) :
    Registry s'.supply (fun T ↦ known T ∨ out = .recordType T) ∧
      s'.Everywhere (Regular fun T ↦ known T ∨ out = .recordType T) ∧
        ∀ q ∈ out.parts, q.Sound fun T ↦ known T ∨ out = .recordType T := by
  obtain ⟨s₁, hperform, hbinding⟩ := perform_of_run h
  have hreg' := hreg.of_performs (performs_of_perform hperform)
  have hs' : s.Everywhere (Regular fun T ↦ known T ∨ out = .recordType T) :=
    hs.imp fun _ hp ↦ Sound.imp hp fun _ ↦ Or.inl
  refine ⟨?_, hs'.of_run h fun T h hout ↦ ⟨Or.inr hout, nodup_keys_of_declares hs h⟩⟩
  rcases hbinding with ⟨-, rfl⟩ | ⟨name, -, rfl⟩
  · exact hreg'
  · rwa [supply_keep]

/-- **Every script leaves a sound session.** -/
theorem sound_script (steps : List Step) :
    ∃ known, Registry (script steps).supply known ∧
      (script steps).Everywhere (Regular known) := by
  refine script_induction (P := fun s ↦
    ∃ known, Registry s.supply known ∧ s.Everywhere (Regular known)) ?_ ?_ steps
  · exact ⟨fun _ ↦ False, ⟨fun h ↦ h.elim, fun h ↦ h.elim⟩, everywhere_empty⟩
  · rintro s s' step out ⟨known, hreg, hs⟩ hrun
    obtain ⟨hreg', hs', -⟩ := sound_of_run hreg hs hrun
    exact ⟨_, hreg', hs'⟩

/-- Everything reachable is sound, among record types that are told apart by their numbers. -/
theorem exists_sound_of_reachable {p : Part} (h : Reachable p) :
    ∃ supply known, Registry supply known ∧ p.Sound known := by
  cases h with
  | @bound steps q hq hp =>
    obtain ⟨known, hreg, hs⟩ := sound_script steps
    exact ⟨_, known, hreg, Throughout.of_within (hs.of_mem_parts hq) hp⟩
  | @given steps step s out q hrun hq hp =>
    obtain ⟨known, hreg, hs⟩ := sound_script steps
    obtain ⟨hreg', -, hout⟩ := sound_of_run hreg hs hrun
    exact ⟨_, _, hreg', (hout q hq).of_within hp⟩

/-- A reachable record is well typed, and its type holds no key twice. -/
theorem wellTyped_of_reachable {r : Record} (h : Reachable (.record r)) :
    r.WellTyped ∧ (Entries.keys r.type.schema).Nodup := by
  obtain ⟨_, known, -, hsound⟩ := exists_sound_of_reachable h
  obtain ⟨htyped, htype, -⟩ := sound_record.mp hsound
  exact ⟨htyped, (sound_recordType.mp htype).1.2⟩

/-! ## Typed records -/

theorem mem_parts_of_value {name : String} {v : Value} (h : s.value name = .ok v) :
    Part.value v ∈ s.parts := by
  have hmem : (name, v) ∈ s.values := mem_of_find h
  exact List.mem_append_right _ (List.mem_map.mpr ⟨(name, v), hmem, rfl⟩)

theorem reachable_of_type {steps : List Step} {name : String} {T : RecordType}
    (h : (script steps).type name = .ok T) : Reachable (.recordType T) := by
  have hmem : (name, T) ∈ (script steps).types := mem_of_find h
  have hparts : Part.recordType T ∈ (script steps).parts :=
    List.mem_append_left _ (List.mem_append_left _ (List.mem_map.mpr ⟨(name, T), hmem, rfl⟩))
  exact .bound hparts (Within.refl _)

theorem reachable_of_fieldType {steps : List Step} {name : String} {F : FieldType}
    (h : (script steps).fieldType name = .ok F) : Reachable (.fieldType F) := by
  have hmem : (name, F) ∈ (script steps).fieldTypes := mem_of_find h
  have hparts : Part.fieldType F ∈ (script steps).parts :=
    List.mem_append_left _ (List.mem_append_right _ (List.mem_map.mpr ⟨(name, F), hmem, rfl⟩))
  exact .bound hparts (Within.refl _)

theorem reachable_of_value {steps : List Step} {name : String} {v : Value}
    (h : (script steps).value name = .ok v) : Reachable (.value v) :=
  .bound (mem_parts_of_value h) (Within.refl _)

theorem reachable_of_record {steps : List Step} {name : String} {r : Record}
    (h : (script steps).record name = .ok r) : Reachable (.record r) := by
  have hnested : Part.record r ∈ (Part.value (.record r)).direct := List.mem_singleton_self _
  exact .bound (mem_parts_of_value (value_of_record h)) (within_of_mem_direct hnested)

/-- **Every reachable record is typed.** Wherever it occurs, it has the keys of its schema, in order
and each of them once, and under each key a value that conforms to the declared field type, which is
undefined only if the field type has no default. So a reachable value has a key exactly if there is
something under it. -/
theorem typed_of_reachable :
    (∀ r : Record, Reachable (.record r) →
      Entries.keys r.fields = Entries.keys r.type.schema ∧ (Entries.keys r.fields).Nodup ∧
        ∀ key F, r.type.field? key = some F → ∃ v, r.get? key = some v ∧
          F.conforms v = true ∧ (v = .undefined → F.defaultValue = .undefined)) ∧
      ∀ v : Value, Reachable (.value v) → ∀ key, v.hasKey key = (v.get? key).isSome := by
  constructor
  · intro r hr
    obtain ⟨_, known, -, hsound⟩ := exists_sound_of_reachable hr
    have htyped := (sound_record.mp hsound).1
    refine ⟨htyped.keys_eq, hsound.nodup_keys_fields, ?_⟩
    intro key F hF
    obtain ⟨v, hv, hholds⟩ := htyped.exists_holds hF
    exact ⟨v, hv, hholds.conforms, hholds.defaultValue⟩
  · intro v hv key
    obtain ⟨_, known, -, hsound⟩ := exists_sound_of_reachable hv
    cases v with
    | record r =>
      have htyped := (sound_record.mp (sound_value_record.mp hsound)).1
      exact (htyped.isSome_get? key).symm
    | _ => rfl

/-- A drawing of a circle: a record with an optional title and a shape, which its kind tells. -/
def drawingSteps : List Step :=
  [⟨.declare [("kind", .str), ("filled", .literal (.bool false))] (some "Circle"), some "Circle"⟩,
   ⟨.unionOf "kind" [("circle", .recordType "Circle")] none, some "Shape"⟩,
   ⟨.optionalOf .str .undefined, some "Title"⟩,
   ⟨.declare [("title", .fieldType "Title"), ("shape", .fieldType "Shape")] none, some "Drawing"⟩,
   ⟨.construct "Drawing" (.map [("shape", .map [("kind", .str "circle")])]), some "drawing"⟩]

def circleType : RecordType :=
  ⟨0, some "Circle", [("kind", .str none), ("filled", .bool (some false))], none,
    [("kind", .field "kind"), ("filled", .field "filled")]⟩

def drawingType : RecordType :=
  ⟨1, none, [("title", .optional (.str none) .undefined),
      ("shape", .union "kind" [("circle", circleType)] none)], none,
    [("title", .field "title"), ("shape", .field "shape")]⟩

def circle : Record :=
  ⟨circleType, some 3, [("kind", .str "circle"), ("filled", .bool false)], false⟩

def drawing : Record :=
  ⟨drawingType, some 2, [("title", .undefined), ("shape", .record circle)], false⟩

theorem record_drawing : (script drawingSteps).record "drawing" = .ok drawing := rfl

theorem typed_drawing :
    Entries.keys drawing.fields = Entries.keys drawingType.schema ∧
      (∃ v, drawing.get? "title" = some v ∧
        (FieldType.optional (.str none) .undefined).conforms v = true) ∧
          (Value.record drawing).hasKey "shape" = ((Value.record drawing).get? "shape").isSome := by
  have hrecord := reachable_of_record record_drawing
  have hvalue := reachable_of_value (value_of_record record_drawing)
  obtain ⟨hkeys, -, hfields⟩ := typed_of_reachable.1 drawing hrecord
  obtain ⟨v, hv, hconforms, -⟩ := hfields "title" (.optional (.str none) .undefined) rfl
  exact ⟨hkeys, ⟨v, hv, hconforms⟩, typed_of_reachable.2 (.record drawing) hvalue "shape"⟩

end Session

end Schemata
