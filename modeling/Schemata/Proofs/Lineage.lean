import Schemata.Proofs.Identity

/-!
# The lineage of record types

A derived type is declared below one that exists, so the types of a session form a forest: each type
has at most one parent and no type is above itself. A record type holds its parent, and with it all
types above, so the chain of these is a matter of its structure. The ancestors of an ancestor are
the end of the chain (`RecordType.suffix_of_mem_ancestors`), from which it follows that the order is
transitive, that no type occurs twice in a chain and that the types in one chain are comparable.

What structure cannot tell is whether two types are one, since this is decided by their numbers.
Here the session comes in. It gives a new number to each type that it declares, so among the types
that a script has declared, in order (`Session.declared`), those with one number are equal
(`Session.Chronicle`). A declaration adds a type at the end of this list and leaves the others, and
all that was true of them, as they were.

A record keeps its type whatever it is changed to (`Record.Revision`), so it stays an instance of
the same types.
-/

namespace Schemata

open Schemata.Part

/-! ## Chains of ancestors -/

namespace RecordType

variable {A B S T : RecordType}

theorem head?_ancestors (T : RecordType) : T.ancestors.head? = some T := by
  cases h : T.parent with
  | none => rw [ancestors_of_parent_none h, List.head?_cons]
  | some P => rw [ancestors_of_parent_some h, List.head?_cons]

/-- **The ancestors of an ancestor** are the end of the chain. -/
theorem suffix_of_mem_ancestors (h : A ∈ T.ancestors) : A.ancestors <:+ T.ancestors := by
  induction T using ancestors.induct with
  | case1 id label schema properties =>
    obtain rfl := List.mem_singleton.mp h
    exact List.suffix_refl _
  | case2 id label schema P properties ih =>
    rcases List.mem_cons.mp h with rfl | h
    · exact List.suffix_refl _
    · exact (ih h).trans (List.suffix_cons _ _)

theorem nodup_ancestors (T : RecordType) : T.ancestors.Nodup := by
  induction T using ancestors.induct with
  | case1 id label schema properties => exact List.pairwise_singleton _ _
  | case2 id label schema P properties ih =>
    refine List.nodup_cons.mpr ⟨?_, ih⟩
    -- Otherwise the chain of the parent would end with the longer one of its child.
    intro hmem
    have hlength := (suffix_of_mem_ancestors hmem).length_le
    rw [ancestors, List.length_cons] at hlength
    omega

theorem eq_of_mem_ancestors (h : A ∈ B.ancestors) (h' : B ∈ A.ancestors) : A = B := by
  have hA := suffix_of_mem_ancestors h
  have hB := suffix_of_mem_ancestors h'
  have heq := hA.eq_of_length (Nat.le_antisymm hA.length_le hB.length_le)
  rw [← Option.some.injEq, ← head?_ancestors A, ← head?_ancestors B, heq]

theorem mem_ancestors_or (hA : A ∈ T.ancestors) (hB : B ∈ T.ancestors) :
    A ∈ B.ancestors ∨ B ∈ A.ancestors := by
  rcases List.suffix_or_suffix_of_suffix (suffix_of_mem_ancestors hA)
    (suffix_of_mem_ancestors hB) with h | h
  · exact Or.inl (h.subset A.self_mem_ancestors)
  · exact Or.inr (h.subset B.self_mem_ancestors)

/-- The ancestors of a sound type are known. -/
theorem known_of_mem_ancestors {known : RecordType → Prop} (hT : (recordType T).Sound known)
    (h : A ∈ T.ancestors) : known A := by
  induction T using ancestors.induct with
  | case1 id label schema properties =>
    obtain rfl := List.mem_singleton.mp h
    exact (sound_recordType.mp hT).1.1
  | case2 id label schema P properties ih =>
    rcases List.mem_cons.mp h with rfl | h
    · exact (sound_recordType.mp hT).1.1
    · exact ih ((sound_recordType.mp hT).2.2 P rfl) h

/-! ## Forests -/

/-- **The order of subtypes** on record types that are told apart by their identities: it is a
partial order in which the types above one type form a chain. -/
structure Forest (types : List RecordType) : Prop where
  /-- No two of the types are one. -/
  distinct : types.Pairwise fun S T ↦ S.identical T = false
  eq_of_identical : ∀ S ∈ types, ∀ T ∈ types, S.identical T = true → S = T
  /-- The ancestors of a type begin with the type itself. -/
  head? : ∀ S ∈ types, S.ancestors.head? = some S
  /-- No type occurs twice among the ancestors of one. -/
  distinct_ancestors : ∀ S ∈ types, S.ancestors.Pairwise fun A B ↦ A.identical B = false
  mem_of_mem_ancestors : ∀ S ∈ types, ∀ A ∈ S.ancestors, A ∈ types
  /-- To be a subtype is to have the other type among the ancestors. -/
  isSubtypeOf_iff : ∀ S ∈ types, ∀ T ∈ types, S.isSubtypeOf T = true ↔ T ∈ S.ancestors
  refl : ∀ S ∈ types, S.isSubtypeOf S = true
  trans : ∀ S ∈ types, ∀ T ∈ types, ∀ U ∈ types, S.isSubtypeOf T = true →
    T.isSubtypeOf U = true → S.isSubtypeOf U = true
  antisymm : ∀ S ∈ types, ∀ T ∈ types, S.isSubtypeOf T = true → T.isSubtypeOf S = true →
    S.identical T = true
  /-- Two ancestors of one type are comparable. -/
  comparable : ∀ S ∈ types, ∀ A ∈ S.ancestors, ∀ B ∈ S.ancestors,
    A.isSubtypeOf B = true ∨ B.isSubtypeOf A = true

theorem identical_self (T : RecordType) : T.identical T = true := by simp [identical]

end RecordType

/-! ## The types that a script declares -/

/-- The record type that an outcome is, if it is one. -/
def Outcome.recordType? : Outcome → Option RecordType
  | .recordType T => some T
  | _ => none

theorem Outcome.recordType?_eq_some_iff {out : Outcome} {T : RecordType} :
    out.recordType? = some T ↔ out = .recordType T := by
  cases out <;> simp [recordType?]

namespace Session

variable {known : RecordType → Prop} {supply : Nat} {S T : RecordType}

/-- Among known types being a subtype is membership. -/
theorem Registry.isSubtypeOf_iff (hreg : Registry supply known)
    (hS : (Part.recordType S).Sound known) (hT : known T) :
    S.isSubtypeOf T = true ↔ T ∈ S.ancestors := by
  rw [RecordType.isSubtypeOf, List.any_eq_true]
  constructor
  · rintro ⟨A, hA, hid⟩
    have hknown := RecordType.known_of_mem_ancestors hS hA
    rwa [← hreg.eq_of_identical hknown hT hid]
  · exact fun h ↦ ⟨T, h, T.identical_self⟩

/-- The record type that a step declares, if it succeeds in declaring one. -/
def declaredBy (s : Session) (step : Step) : List RecordType :=
  match s.run step with
  | .error _ => []
  | .ok (_, out) => out.recordType?.toList

/-- The record types that are declared in the course of some steps, in order. -/
def declaredFrom (s : Session) : List Step → List RecordType
  | [] => []
  | step :: rest => s.declaredBy step ++ (s.after step).declaredFrom rest

/-- The record types that a script declares, in order. -/
def declared (steps : List Step) : List RecordType := empty.declaredFrom steps

theorem declaredFrom_append (s : Session) (steps more : List Step) :
    s.declaredFrom (steps ++ more) =
      s.declaredFrom steps ++ (steps.foldl after s).declaredFrom more := by
  induction steps generalizing s with
  | nil => rfl
  | cons step rest ih =>
    rw [List.cons_append, declaredFrom, ih, declaredFrom, List.append_assoc, List.foldl_cons]

theorem declared_append (steps more : List Step) :
    declared (steps ++ more) = declared steps ++ (script steps).declaredFrom more :=
  declaredFrom_append empty steps more

/-- The list holds the record types of a session, those that no name is bound to any more included:
each has a number, which is greater than those of the types before it, and refers to types in the
list only. -/
structure Chronicle (s : Session) (types : List RecordType) : Prop where
  registry : Registry s.supply (· ∈ types)
  ascending : types.Pairwise fun S T ↦ S.id < T.id
  sound : ∀ T ∈ types, (Part.recordType T).Sound (· ∈ types)
  everywhere : s.Everywhere (Regular (· ∈ types))

variable {s : Session} {types : List RecordType}

theorem chronicle_empty : empty.Chronicle [] where
  registry := ⟨fun h ↦ absurd h List.not_mem_nil, fun h ↦ absurd h List.not_mem_nil⟩
  ascending := List.Pairwise.nil
  sound := List.forall_mem_nil _
  everywhere := everywhere_empty

theorem id_of_performs {c : Command} {out : Session × Outcome} (h : s.Performs c out)
    (hT : out.2 = .recordType T) : T.id = s.supply := by
  cases h with
  | declares h =>
    obtain rfl := Outcome.recordType.inj hT
    exact id_of_declares h
  | _ => cases hT

/-- **A step writes the chronicle on**: a type that it declares goes last, with the next number. -/
theorem Chronicle.of_run {s' : Session} {step : Step} {out : Outcome} (h : s.Chronicle types)
    (hrun : s.run step = .ok (s', out)) : s'.Chronicle (types ++ out.recordType?.toList) := by
  have hknown : (fun T ↦ T ∈ types ∨ out = .recordType T) =
      (· ∈ types ++ out.recordType?.toList) := by
    funext T
    rw [List.mem_append, Option.mem_toList, Outcome.recordType?_eq_some_iff]
  obtain ⟨hreg, heverywhere, hout⟩ := sound_of_run h.registry h.everywhere hrun
  rw [hknown] at hreg heverywhere hout
  refine ⟨hreg, ?_, List.forall_mem_append.mpr ⟨?_, ?_⟩, heverywhere⟩
  · refine List.pairwise_append.mpr ⟨h.ascending, ?_, fun S hS T hT ↦ ?_⟩
    · rcases out.recordType? with _ | T
      · exact List.Pairwise.nil
      · exact List.pairwise_singleton _ T
    · rw [Option.mem_toList, Outcome.recordType?_eq_some_iff] at hT
      obtain ⟨s₁, hperform, -⟩ := perform_of_run hrun
      rw [id_of_performs (performs_of_perform hperform) hT]
      exact h.registry.lt hS
  · exact fun T hT ↦ (h.sound T hT).imp fun S ↦ List.mem_append_left _
  · intro T hT
    rw [Option.mem_toList, Outcome.recordType?_eq_some_iff] at hT
    subst hT
    exact hout _ List.mem_cons_self

theorem Chronicle.after (h : s.Chronicle types) (step : Step) :
    (s.after step).Chronicle (types ++ s.declaredBy step) := by
  rw [after_eq, declaredBy]
  rcases hrun : s.run step with e | ⟨s', out⟩
  · rwa [List.append_nil]
  · exact h.of_run hrun

theorem Chronicle.foldl_after (h : s.Chronicle types) (steps : List Step) :
    (steps.foldl Session.after s).Chronicle (types ++ s.declaredFrom steps) := by
  induction steps generalizing s types with
  | nil => rwa [declaredFrom, List.append_nil]
  | cons step rest ih =>
    rw [declaredFrom, ← List.append_assoc]
    exact ih (h.after step)

/-- **What a script declares** is the chronicle of its session. -/
theorem chronicle_script (steps : List Step) : (script steps).Chronicle (declared steps) :=
  chronicle_empty.foldl_after steps

theorem Chronicle.distinct (h : s.Chronicle types) :
    types.Pairwise fun S T ↦ S.identical T = false :=
  h.ascending.imp fun hlt ↦ by simp [RecordType.identical, Nat.ne_of_lt hlt]

/-- **The record types of a session form a forest.** -/
theorem Chronicle.forest (h : s.Chronicle types) : RecordType.Forest types := by
  have hmem : ∀ S ∈ types, ∀ A ∈ S.ancestors, A ∈ types := fun S hS A hA ↦
    RecordType.known_of_mem_ancestors (h.sound S hS) hA
  have hiff : ∀ S ∈ types, ∀ T ∈ types, S.isSubtypeOf T = true ↔ T ∈ S.ancestors :=
    fun S hS T hT ↦ h.registry.isSubtypeOf_iff (h.sound S hS) hT
  refine
    { distinct := h.distinct
      eq_of_identical := fun S hS T hT ↦ h.registry.eq_of_identical hS hT
      head? := fun S _ ↦ S.head?_ancestors
      distinct_ancestors := ?_
      mem_of_mem_ancestors := hmem
      isSubtypeOf_iff := hiff
      refl := fun S _ ↦ S.isSubtypeOf_refl
      trans := ?_
      antisymm := ?_
      comparable := ?_ }
  · intro S hS
    refine S.nodup_ancestors.imp_of_mem fun {A B} hA hB hne ↦ ?_
    rw [Bool.eq_false_iff]
    exact fun hid ↦ hne (h.registry.eq_of_identical (hmem S hS A hA) (hmem S hS B hB) hid)
  · intro S hS T hT U hU hST hTU
    rw [hiff S hS T hT] at hST
    rw [hiff T hT U hU] at hTU
    rw [hiff S hS U hU]
    exact (RecordType.suffix_of_mem_ancestors hST).subset hTU
  · intro S hS T hT hST hTS
    rw [hiff S hS T hT] at hST
    rw [hiff T hT S hS] at hTS
    rw [RecordType.eq_of_mem_ancestors hTS hST]
    exact T.identical_self
  · intro S hS A hA B hB
    rw [hiff A (hmem S hS A hA) B (hmem S hS B hB), hiff B (hmem S hS B hB) A (hmem S hS A hA)]
    exact (RecordType.mem_ancestors_or hA hB).symm

/-- What the session holds refers to types of the chronicle only. -/
theorem Chronicle.mem_of_within (h : s.Chronicle types) {p : Part} (hp : p ∈ s.parts)
    (hT : (Part.recordType T).Within p) : T ∈ types :=
  (h.everywhere.of_mem_parts hp _ hT).1

/-! ## Later steps -/

theorem type_after {step : Step} {name : String} (h : step.binding ≠ some name) :
    (s.after step).type name = s.type name := by
  rw [after_eq]
  rcases hrun : s.run step with e | ⟨s', out⟩
  · rfl
  · exact (keptBy_of_run hrun name h).1

/-- A name that no step binds anew stands for the type that it stood for. -/
theorem type_foldl_after {steps : List Step} {name : String}
    (h : ∀ step ∈ steps, step.binding ≠ some name) :
    (steps.foldl after s).type name = s.type name := by
  induction steps generalizing s with
  | nil => rfl
  | cons step rest ih =>
    obtain ⟨hstep, hrest⟩ := List.forall_mem_cons.mp h
    rw [List.foldl_cons, ih hrest, type_after hstep]

/-- A type that is declared later is no type that there was, and not above one. -/
theorem not_isSubtypeOf_of_declared {steps more : List Step} {new : List RecordType}
    (hmore : declared (steps ++ more) = declared steps ++ new) (hS : S ∈ declared steps)
    (hT : T ∈ new) : S.identical T = false ∧ S.isSubtypeOf T = false := by
  have hforest := (chronicle_script steps).forest
  have hlater := (chronicle_script (steps ++ more)).forest
  rw [hmore] at hlater
  obtain ⟨-, -, hdistinct⟩ := List.pairwise_append.mp hlater.distinct
  refine ⟨hdistinct S hS T hT, ?_⟩
  rw [Bool.eq_false_iff]
  intro hsub
  rw [hlater.isSubtypeOf_iff S (List.mem_append_left _ hS) T (List.mem_append_right _ hT)] at hsub
  have hold := hdistinct T (hforest.mem_of_mem_ancestors S hS T hsub) T hT
  rw [T.identical_self] at hold
  cases hold

end Session

/-! ## Records -/

namespace Record

/-- One record becomes another by a write or by being taken into draft, out of it or into a
session. -/
inductive Revision (r : Record) : Record → Prop where
  | set {key v r'} : r.set key v = .ok r' → r.Revision r'
  | reset {key r'} : r.reset key = .ok r' → r.Revision r'
  | setIn {path v r'} : r.setIn path v = .ok r' → r.Revision r'
  | write {key v r'} : r.write key v = .ok r' → r.Revision r'
  | assign {name v r'} : r.assign name v = .ok r' → r.Revision r'
  | toDraft : r.Revision r.toDraft
  | commit : r.Revision r.commit
  | settle (next : Nat) : r.Revision (r.settle next).1

variable {r r' : Record}

/-- A revision keeps the type. -/
theorem Revision.type_eq (h : r.Revision r') : r'.type = r.type := by
  cases h with
  | set h | reset h => exact type_of_set h
  | setIn h =>
    obtain ⟨key, x, hset⟩ := exists_set_of_setIn h
    exact type_of_set hset
  | write h => exact type_of_set (set_of_write h)
  | assign h =>
    obtain ⟨p, -, hset⟩ := set_of_assign h
    exact type_of_set hset
  | toDraft | commit => rfl
  | settle next => exact r.type_settle next

/-- So do any number of revisions. -/
theorem type_eq_of_revisions (h : Relation.ReflTransGen Revision r r') : r'.type = r.type := by
  induction h with
  | refl => rfl
  | tail _ hstep ih => rw [hstep.type_eq, ih]

end Record

namespace Session

/-- **Subtyping is the order of a forest.** Whatever a script does, the types that it declares form
a forest under the order of subtypes, and there are no other types in its session. Further steps
declare further types, which are different from all that there were and above none of them, and a
name that they do not bind anew keeps its type. A record built by one of the types is an instance of
this type and of those above it and of no others, and it stays so whatever becomes of it. -/
theorem subtyping_is_forest (steps : List Step) :
    (∀ p ∈ (script steps).parts, ∀ T, (Part.recordType T).Within p → T ∈ declared steps) ∧
    RecordType.Forest (declared steps) ∧
    (∀ more, ∃ new, declared (steps ++ more) = declared steps ++ new ∧
      (∀ S ∈ declared steps, ∀ T ∈ new, S.identical T = false ∧ S.isSubtypeOf T = false) ∧
      ∀ name, (∀ step ∈ more, step.binding ≠ some name) →
        (script (steps ++ more)).type name = (script steps).type name) ∧
    ∀ T ∈ declared steps, ∀ v r r', T.construct v = .ok r →
      Relation.ReflTransGen Record.Revision r r' →
        r'.type = T ∧ ∀ S ∈ declared steps, r'.isInstanceOf S = true ↔ S ∈ T.ancestors := by
  have hchronicle := chronicle_script steps
  have hforest := hchronicle.forest
  refine ⟨fun p hp T hT ↦ hchronicle.mem_of_within hp hT, hforest, ?_, ?_⟩
  · intro more
    refine ⟨_, declared_append steps more, fun S hS T hT ↦ ?_, fun name hname ↦ ?_⟩
    · exact not_isSubtypeOf_of_declared (declared_append steps more) hS hT
    · rw [script, List.foldl_append]
      exact type_foldl_after hname
  · intro T hT v r r' hr hrevisions
    have htype : r'.type = T := by
      rw [Record.type_eq_of_revisions hrevisions]
      exact RecordType.type_of_build (RecordType.construct_eq_ok_iff.mp hr).2
    refine ⟨htype, fun S hS ↦ ?_⟩
    rw [Record.isInstanceOf, htype, hforest.isSubtypeOf_iff T hT S hS]

/-- Two types with the same field and label, and one below the first. -/
def twinSteps : List Step :=
  [⟨.declare [("name", .str)] (some "Twin"), some "first"⟩,
   ⟨.declare [("name", .str)] (some "Twin"), some "second"⟩,
   ⟨.relabel "first" "Child", some "child"⟩]

def twinType (id : Nat) : RecordType :=
  ⟨id, some "Twin", [("name", .str none)], none, [("name", .field "name")]⟩

/-- A record of the child is one of its parent, also after it was written to, and not one of the
parent's twin. -/
theorem subtyping_is_forest_twins :
    (twinType 0).identical (twinType 1) = false ∧
      ∃ r r', ((twinType 0).relabelled 2 "Child").construct (.map [("name", .str "Ada")]) = .ok r ∧
        r.set "name" (.str "Eve") = .ok r' ∧ r'.isInstanceOf (twinType 0) = true ∧
          r'.isInstanceOf (twinType 1) = false := by
  have hdeclared : declared twinSteps =
    [twinType 0, twinType 1, (twinType 0).relabelled 2 "Child"] := rfl
  obtain ⟨-, hforest, -, hrecords⟩ := subtyping_is_forest twinSteps
  rw [hdeclared] at hforest hrecords
  obtain ⟨hfirst, -⟩ := List.pairwise_cons.mp hforest.distinct
  refine ⟨hfirst _ List.mem_cons_self, ?_⟩
  obtain ⟨r, hr⟩ : ∃ r, ((twinType 0).relabelled 2 "Child").construct
    (.map [("name", .str "Ada")]) = .ok r := ⟨_, rfl⟩
  obtain ⟨r', hr'⟩ : ∃ r', r.set "name" (.str "Eve") = .ok r' := by
    obtain rfl := Except.ok.inj hr
    exact ⟨_, rfl⟩
  obtain ⟨-, hinstance⟩ := hrecords _ (by simp) _ r r' hr (.single (.set hr'))
  have hancestors : ((twinType 0).relabelled 2 "Child").ancestors =
    [(twinType 0).relabelled 2 "Child", twinType 0] := rfl
  rw [hancestors] at hinstance
  refine ⟨r, r', hr, hr', (hinstance _ List.mem_cons_self).mpr (by simp), ?_⟩
  rw [Bool.eq_false_iff]
  intro h
  have hmem := (hinstance (twinType 1) (by simp)).mp h
  have hid := List.mem_map_of_mem (f := RecordType.id) hmem
  simp [twinType, RecordType.relabelled, RecordType.derived] at hid

end Session

end Schemata
