/-!
# Insertion-ordered dictionaries

Maps, record fields, schemas and lists of declarations all keep their keys in the order in which
these were first inserted. They share one representation, the list of key and value pairs, because
the dynamic values of this library are a nested inductive type and a list is the container through
which recursion stays structural.

A dictionary built by `ofList`, `put` and `putAll` holds no key twice (`nodup_keys_ofList`,
`nodup_keys_put`, `nodup_keys_putAll`); `get?_put` and `keys_put` say what a write does to the two
views of a dictionary, the value under a key and the sequence of keys, and `get?_putAll` and
`keys_putAll` say it of many writes, which compose (`putAll_putAll`).
-/

namespace Schemata

/-- A dictionary with string keys, in insertion order. -/
abbrev Entries (α : Type) := List (String × α)

namespace Entries

variable {α β : Type}

/-- The keys, in order. -/
def keys (xs : Entries α) : List String := xs.map Prod.fst

/-- The value stored under `key`. -/
def get? : Entries α → String → Option α
  | [], _ => none
  | (k, v) :: rest, key => if k = key then some v else get? rest key

/-- Whether `key` has an entry. -/
def contains (xs : Entries α) (key : String) : Bool := (get? xs key).isSome

/-- Stores `value` under `key`: an entry that exists keeps its position, a new one goes last. -/
def put : Entries α → String → α → Entries α
  | [], key, value => [(key, value)]
  | (k, v) :: rest, key, value =>
    if k = key then (k, value) :: rest else (k, v) :: put rest key value

/-- Stores every entry of `ys`, in order. -/
def putAll (xs ys : Entries α) : Entries α := ys.foldl (fun acc y ↦ put acc y.1 y.2) xs

/-- The dictionary of a list of pairs: of a repeated key the last value stays, at the position of
the first. -/
def ofList (ys : List (String × α)) : Entries α := putAll [] ys

/-! ## Looking up after a write -/

@[simp] theorem get?_nil (key : String) : get? ([] : Entries α) key = none := rfl

theorem get?_cons (k : String) (v : α) (xs : Entries α) (key : String) :
    get? ((k, v) :: xs) key = if k = key then some v else get? xs key := rfl

@[simp] theorem keys_nil : keys ([] : Entries α) = [] := rfl

@[simp] theorem keys_cons (k : String) (v : α) (xs : Entries α) :
    keys ((k, v) :: xs) = k :: keys xs := rfl

theorem putAll_cons (xs : Entries α) (y : String × α) (ys : Entries α) :
    putAll xs (y :: ys) = putAll (put xs y.1 y.2) ys := rfl

theorem get?_put (xs : Entries α) (key : String) (value : α) (other : String) :
    get? (put xs key value) other = if key = other then some value else get? xs other := by
  induction xs with
  | nil => simp [put, get?]
  | cons x rest ih =>
    obtain ⟨k, v⟩ := x
    by_cases hk : k = key
    · subst hk
      by_cases ho : k = other <;> simp [put, get?, ho]
    · simp only [put, hk, if_false, get?_cons, ih]
      by_cases hko : k = other
      · subst hko
        simp [Ne.symm hk]
      · simp [hko]

@[simp] theorem get?_put_self (xs : Entries α) (key : String) (value : α) :
    get? (put xs key value) key = some value := by
  simp [get?_put]

theorem get?_eq_none_iff {xs : Entries α} {key : String} : get? xs key = none ↔ key ∉ keys xs := by
  induction xs with
  | nil => simp
  | cons x rest ih =>
    obtain ⟨k, v⟩ := x
    by_cases hk : k = key
    · simp [get?, hk]
    · simp [get?, hk, ih, Ne.symm hk]

theorem get?_isSome_iff {xs : Entries α} {key : String} :
    (get? xs key).isSome = true ↔ key ∈ keys xs := by
  rw [← Decidable.not_iff_not, Option.not_isSome_iff_eq_none, get?_eq_none_iff]

theorem mem_of_get?_eq_some {xs : Entries α} {key : String} {value : α}
    (h : get? xs key = some value) : (key, value) ∈ xs := by
  induction xs with
  | nil => simp at h
  | cons x rest ih =>
    obtain ⟨k, v⟩ := x
    by_cases hk : k = key
    · simp_all [get?]
    · simp only [get?, hk, if_false] at h
      exact List.mem_cons_of_mem _ (ih h)

/-- In a dictionary without repeated keys every entry is the one its key finds. -/
theorem get?_eq_some_of_mem {xs : Entries α} (hn : (keys xs).Nodup) {key : String} {value : α}
    (h : (key, value) ∈ xs) : get? xs key = some value := by
  induction xs with
  | nil => simp at h
  | cons x rest ih =>
    obtain ⟨k, v⟩ := x
    rw [keys_cons, List.nodup_cons] at hn
    rcases List.mem_cons.mp h with heq | hmem
    · cases heq
      simp [get?]
    · have hne : k ≠ key := by
        rintro rfl
        exact hn.1 (List.mem_map_of_mem hmem)
      simpa [get?, hne] using ih hn.2 hmem

/-- Of two dictionaries in a row the first one that has a key decides. -/
theorem get?_append (xs ys : Entries α) (key : String) :
    get? (xs ++ ys) key = (get? xs key).or (get? ys key) := by
  induction xs with
  | nil => rfl
  | cons x rest ih =>
    rw [List.cons_append, get?_cons, get?_cons, ih]
    split <;> rfl

theorem get?_map (f : α → β) (xs : Entries α) (key : String) :
    get? (xs.map fun x ↦ (x.1, f x.2)) key = (get? xs key).map f := by
  induction xs with
  | nil => rfl
  | cons x rest ih =>
    rw [List.map_cons, get?_cons, ih, get?]
    by_cases hk : x.1 = key <;> simp [hk]

/-- In a dictionary that is made from its keys each of them finds what was made for it. -/
theorem get?_ofKeys (f : String → α) (ks : List String) (key : String) :
    get? (ks.map fun k ↦ (k, f k)) key = if key ∈ ks then some (f key) else none := by
  induction ks with
  | nil => rfl
  | cons k rest ih =>
    rw [List.map_cons, get?_cons, ih]
    by_cases hk : k = key
    · simp [hk]
    · simp [hk, Ne.symm hk]

/-- A dictionary that is another one with `f` applied has under each key what `f` makes of the value
there. -/
theorem get?_eq_bind_of_map {xs : Entries α} {ys : Entries β} {f : β → Option α}
    (h : xs.map (fun x ↦ (x.1, some x.2)) = ys.map fun y ↦ (y.1, f y.2)) (key : String) :
    get? xs key = (get? ys key).bind f := by
  have hget : (get? xs key).map some = (get? ys key).map f := by
    rw [← get?_map, h, get?_map]
  calc get? xs key = ((get? xs key).map some).bind id := by cases get? xs key <;> rfl
    _ = ((get? ys key).map f).bind id := by rw [hget]
    _ = (get? ys key).bind f := Option.bind_map

@[simp] theorem keys_map (f : α → β) (xs : Entries α) :
    keys (xs.map fun x ↦ (x.1, f x.2)) = keys xs := by
  rw [keys, List.map_map]
  rfl

/-- Without repeated keys a dictionary is determined by its two views. -/
theorem eq_of_get? {xs ys : Entries α} (hkeys : keys xs = keys ys) (hn : (keys xs).Nodup)
    (hget : ∀ key, get? xs key = get? ys key) : xs = ys := by
  induction xs generalizing ys with
  | nil => exact (List.map_eq_nil_iff.mp hkeys.symm).symm
  | cons x rest ih =>
    obtain ⟨k, v⟩ := x
    cases ys with
    | nil => exact absurd hkeys (by simp)
    | cons y more =>
      obtain ⟨k', w⟩ := y
      rw [keys_cons, keys_cons, List.cons.injEq] at hkeys
      obtain ⟨rfl, hkeys⟩ := hkeys
      rw [keys_cons, List.nodup_cons] at hn
      obtain rfl : v = w := by simpa [get?_cons] using hget k
      have hrest : ∀ key, get? rest key = get? more key := by
        intro key
        by_cases hk : k = key
        · subst hk
          rw [get?_eq_none_iff.mpr hn.1, get?_eq_none_iff.mpr (hkeys ▸ hn.1)]
        · simpa [get?_cons, hk] using hget key
      rw [ih hkeys hn.2 hrest]

/-- Storing what is under a key already changes nothing. -/
theorem put_eq_self {xs : Entries α} {key : String} {value : α} (h : get? xs key = some value) :
    put xs key value = xs := by
  induction xs with
  | nil => simp at h
  | cons x rest ih =>
    obtain ⟨k, v⟩ := x
    rw [get?_cons] at h
    by_cases hk : k = key
    · rw [if_pos hk, Option.some.injEq] at h
      rw [put, if_pos hk, h]
    · rw [if_neg hk] at h
      rw [put, if_neg hk, ih h]

/-! ## Keys after a write -/

theorem keys_put (xs : Entries α) (key : String) (value : α) :
    keys (put xs key value) = if key ∈ keys xs then keys xs else keys xs ++ [key] := by
  induction xs with
  | nil => simp [put]
  | cons x rest ih =>
    obtain ⟨k, v⟩ := x
    by_cases hk : k = key
    · simp [put, hk]
    · simp only [put, hk, if_false, keys_cons, ih, List.mem_cons, Ne.symm hk, false_or]
      by_cases hm : key ∈ keys rest <;> simp [hm]

theorem mem_keys_put {xs : Entries α} {key other : String} {value : α} :
    other ∈ keys (put xs key value) ↔ other ∈ keys xs ∨ other = key := by
  rw [keys_put]
  by_cases hm : key ∈ keys xs
  · rw [if_pos hm]
    exact ⟨Or.inl, fun h ↦ h.elim id fun heq ↦ heq ▸ hm⟩
  · rw [if_neg hm, List.mem_append, List.mem_singleton]

theorem mem_keys_putAll {xs ys : Entries α} {key : String} :
    key ∈ keys (putAll xs ys) ↔ key ∈ keys xs ∨ key ∈ keys ys := by
  induction ys generalizing xs with
  | nil => simp [putAll]
  | cons y rest ih => rw [putAll_cons, ih, mem_keys_put, keys_cons, List.mem_cons, or_assoc]

theorem nodup_keys_put {xs : Entries α} (hn : (keys xs).Nodup) (key : String) (value : α) :
    (keys (put xs key value)).Nodup := by
  rw [keys_put]
  by_cases hm : key ∈ keys xs
  · simpa [hm] using hn
  · simp only [hm, if_false]
    rw [List.nodup_append]
    refine ⟨hn, by simp, ?_⟩
    intro a ha b hb
    obtain rfl := List.mem_singleton.mp hb
    rintro rfl
    exact hm ha

theorem nodup_keys_putAll {xs : Entries α} (hn : (keys xs).Nodup) (ys : Entries α) :
    (keys (putAll xs ys)).Nodup := by
  induction ys generalizing xs with
  | nil => exact hn
  | cons y rest ih => exact ih (nodup_keys_put hn y.1 y.2)

theorem nodup_keys_ofList (ys : List (String × α)) : (keys (ofList ys)).Nodup :=
  nodup_keys_putAll (show (keys ([] : Entries α)).Nodup from List.nodup_nil) ys

theorem putAll_ne_nil {xs : Entries α} (h : xs ≠ []) (ys : Entries α) : putAll xs ys ≠ [] := by
  obtain ⟨x, hx⟩ := List.exists_mem_of_ne_nil xs h
  have hkey : x.1 ∈ keys (putAll xs ys) := mem_keys_putAll.mpr (Or.inl (List.mem_map_of_mem hx))
  intro hnil
  rw [hnil] at hkey
  cases hkey

/-! ## Mapping the values -/

theorem map_put (f : α → β) (xs : Entries α) (key : String) (value : α) :
    (put xs key value).map (fun e ↦ (e.1, f e.2)) =
      put (xs.map fun e ↦ (e.1, f e.2)) key (f value) := by
  induction xs with
  | nil => rfl
  | cons x rest ih =>
    obtain ⟨k, v⟩ := x
    by_cases hk : k = key
    · simp [put, hk]
    · simp [put, hk, ih]

theorem map_putAll (f : α → β) (xs ys : Entries α) :
    (putAll xs ys).map (fun e ↦ (e.1, f e.2)) =
      putAll (xs.map fun e ↦ (e.1, f e.2)) (ys.map fun e ↦ (e.1, f e.2)) := by
  induction ys generalizing xs with
  | nil => rfl
  | cons y rest ih => rw [List.map_cons, putAll_cons, putAll_cons, ih, map_put]

theorem map_ofList (f : α → β) (ys : List (String × α)) :
    (ofList ys).map (fun e ↦ (e.1, f e.2)) = ofList (ys.map fun e ↦ (e.1, f e.2)) :=
  map_putAll f [] ys

/-! ## Entries after a write -/

theorem mem_put {xs : Entries α} {key : String} {value : α} {x : String × α}
    (h : x ∈ put xs key value) : x ∈ xs ∨ x = (key, value) := by
  induction xs with
  | nil => exact Or.inr (List.mem_singleton.mp h)
  | cons y rest ih =>
    obtain ⟨k, v⟩ := y
    by_cases hk : k = key
    · rw [put, if_pos hk, hk] at h
      rcases List.mem_cons.mp h with h | h
      · exact Or.inr h
      · exact Or.inl (List.mem_cons_of_mem _ h)
    · rw [put, if_neg hk] at h
      rcases List.mem_cons.mp h with h | h
      · exact Or.inl (h ▸ List.mem_cons_self)
      · exact (ih h).imp_left (List.mem_cons_of_mem _)

theorem mem_putAll {xs ys : Entries α} {x : String × α} (h : x ∈ putAll xs ys) :
    x ∈ xs ∨ x ∈ ys := by
  induction ys generalizing xs with
  | nil => exact Or.inl h
  | cons y rest ih =>
    rcases ih h with h | h
    · rcases mem_put h with h | rfl
      · exact Or.inl h
      · exact Or.inr List.mem_cons_self
    · exact Or.inr (List.mem_cons_of_mem _ h)

theorem mem_ofList {ys : List (String × α)} {x : String × α} (h : x ∈ ofList ys) : x ∈ ys :=
  (mem_putAll h).resolve_left List.not_mem_nil

theorem put_eq_append {xs : Entries α} {key : String} (h : key ∉ keys xs) (value : α) :
    put xs key value = xs ++ [(key, value)] := by
  induction xs with
  | nil => rfl
  | cons x rest ih =>
    obtain ⟨k, v⟩ := x
    rw [keys_cons, List.mem_cons, not_or] at h
    rw [put, if_neg (Ne.symm h.1), ih h.2, List.cons_append]

/-- Entries with other keys are left where they are, in front. -/
theorem putAll_append {xs ys : Entries α} (h : ∀ key ∈ keys ys, key ∉ keys xs) (zs : Entries α) :
    putAll (xs ++ zs) ys = xs ++ putAll zs ys := by
  have hput (zs : Entries α) {key : String} (hkey : key ∉ keys xs) (value : α) :
      put (xs ++ zs) key value = xs ++ put zs key value := by
    clear h
    induction xs with
    | nil => rfl
    | cons x rest ih =>
      rw [keys_cons, List.mem_cons, not_or] at hkey
      rw [List.cons_append, put, if_neg (Ne.symm hkey.1), ih hkey.2, List.cons_append]
  induction ys generalizing zs with
  | nil => rfl
  | cons y rest ih =>
    obtain ⟨hy, hrest⟩ := List.forall_mem_cons.mp h
    rw [putAll_cons, putAll_cons, hput zs hy, ih hrest]

/-- Storing entries under distinct new keys appends them. -/
theorem putAll_eq_append {xs ys : Entries α} (h : (keys xs ++ keys ys).Nodup) :
    putAll xs ys = xs ++ ys := by
  induction ys generalizing xs with
  | nil => exact (List.append_nil xs).symm
  | cons y rest ih =>
    have hy : y.1 ∉ keys xs := fun hm ↦
      (List.nodup_append.mp h).2.2 _ hm _ List.mem_cons_self rfl
    have hxs : keys (xs ++ [y]) ++ keys rest = keys xs ++ keys (y :: rest) := by
      simp [keys]
    rw [putAll_cons, put_eq_append hy, ih (hxs ▸ h), List.append_assoc, List.singleton_append]

/-- A list of pairs without repeated keys is a dictionary as it is. -/
theorem ofList_eq_self {ys : Entries α} (h : (keys ys).Nodup) : ofList ys = ys := by
  have hnil : (keys ([] : Entries α) ++ keys ys).Nodup := h
  rw [ofList, putAll_eq_append hnil, List.nil_append]

/-! ## Many writes -/

/-- A key finds what the last write to it stored, or else what was there before. -/
theorem get?_putAll (xs ys : Entries α) (key : String) :
    get? (putAll xs ys) key = (get? ys.reverse key).or (get? xs key) := by
  induction ys generalizing xs with
  | nil => rfl
  | cons y rest ih =>
    rw [putAll_cons, ih, get?_put, List.reverse_cons, get?_append, Option.or_assoc, get?_cons,
      get?_nil]
    split <;> rfl

/-- The keys that were there stay, and the new ones follow in the order in which they first come
up. -/
theorem keys_putAll (xs ys : Entries α) :
    keys (putAll xs ys) = keys xs ++ ((keys ys).filter (· ∉ keys xs)).eraseDups := by
  induction ys generalizing xs with
  | nil => exact (List.append_nil _).symm
  | cons y rest ih =>
    rw [putAll_cons, ih, keys_put, keys_cons]
    by_cases hy : y.1 ∈ keys xs
    · rw [if_pos hy, List.filter_cons_of_neg (by simpa using hy)]
    · -- The key counts as one that was there from now on, so it does not come up again.
      have hfilter : (keys rest).filter (· ∉ keys xs ++ [y.1]) =
          ((keys rest).filter (· ∉ keys xs)).filter fun key ↦ !key == y.1 := by
        rw [List.filter_filter]
        refine List.filter_congr fun key _ ↦ ?_
        by_cases hkey : key = y.1 <;> simp [hkey]
      rw [if_neg hy, hfilter, List.filter_cons_of_pos (by simpa using hy), List.eraseDups_cons,
        List.append_assoc, List.singleton_append]

theorem get?_ofList (ys : List (String × α)) (key : String) :
    get? (ofList ys) key = get? ys.reverse key := by
  rw [ofList, get?_putAll, get?_nil, Option.or_none]

theorem keys_ofList (ys : List (String × α)) : keys (ofList ys) = (keys ys).eraseDups := by
  have hall : (keys ys).filter (· ∉ keys ([] : Entries α)) = keys ys :=
    List.filter_eq_self.mpr fun key _ ↦ decide_eq_true List.not_mem_nil
  rw [ofList, keys_putAll, hall, keys_nil, List.nil_append]

/-- Of the keys of a dictionary those that are not there yet are appended. -/
theorem keys_putAll_of_nodup {ys : Entries α} (h : (keys ys).Nodup) (xs : Entries α) :
    keys (putAll xs ys) = keys xs ++ (keys ys).filter (· ∉ keys xs) := by
  have hfilter : (keys ys).filter (· ∉ keys xs) = keys (ys.filter fun y ↦ y.1 ∉ keys xs) := by
    rw [keys, keys, List.filter_map]
    rfl
  rw [keys_putAll, hfilter, ← keys_ofList, ofList_eq_self (hfilter ▸ h.filter _)]

/-- Of two writes to one key the second stays. -/
theorem put_put_self (xs : Entries α) (key : String) (v w : α) :
    put (put xs key v) key w = put xs key w := by
  induction xs with
  | nil => simp [put]
  | cons x rest ih =>
    obtain ⟨k, u⟩ := x
    by_cases hk : k = key <;> simp [put, hk, ih]

/-- Writes to two keys may change places if one of the keys is there already. -/
theorem put_comm {xs : Entries α} {key other : String} (hne : key ≠ other) (hkey : key ∈ keys xs)
    (v w : α) : put (put xs other w) key v = put (put xs key v) other w := by
  induction xs with
  | nil => cases hkey
  | cons x rest ih =>
    obtain ⟨k, u⟩ := x
    by_cases hk : k = key
    · subst hk
      simp [put, hne]
    · have hrest : key ∈ keys rest := by simpa [Ne.symm hk] using hkey
      by_cases ho : k = other <;> simp [put, hk, ho, ih hrest, hne.symm]

/-- A write to a key that is there already may come before writes to other keys. -/
theorem put_putAll_of_mem {xs ys : Entries α} {key : String} (hxs : key ∈ keys xs)
    (hys : key ∉ keys ys) (value : α) :
    put (putAll xs ys) key value = putAll (put xs key value) ys := by
  induction ys generalizing xs with
  | nil => rfl
  | cons y rest ih =>
    rw [keys_cons, List.mem_cons, not_or] at hys
    rw [putAll_cons, putAll_cons, ih (mem_keys_put.mpr (Or.inl hxs)) hys.2, put_comm hys.1 hxs]

/-- To write what another dictionary has after a write is to write what it has and then this. -/
theorem putAll_put {ys : Entries α} (h : (keys ys).Nodup) (xs : Entries α) (key : String)
    (value : α) : putAll xs (put ys key value) = put (putAll xs ys) key value := by
  induction ys generalizing xs with
  | nil => rfl
  | cons y rest ih =>
    obtain ⟨k, w⟩ := y
    rw [keys_cons, List.nodup_cons] at h
    by_cases hk : k = key
    · -- The key is not written again, so the last write to it may as well be the first.
      subst hk
      have hmem : k ∈ keys (put xs k w) := mem_keys_put.mpr (Or.inr rfl)
      rw [put, if_pos rfl, putAll_cons, putAll_cons, put_putAll_of_mem hmem h.1, put_put_self]
    · rw [put, if_neg hk, putAll_cons, putAll_cons, ih h.2]

/-- **Writes compose**: to write what another dictionary has after many writes is to write what it
has and then all of these. -/
theorem putAll_putAll {ys : Entries α} (h : (keys ys).Nodup) (xs zs : Entries α) :
    putAll xs (putAll ys zs) = putAll (putAll xs ys) zs := by
  induction zs generalizing ys with
  | nil => rfl
  | cons z rest ih => rw [putAll_cons, putAll_cons, ih (nodup_keys_put h z.1 z.2), putAll_put h]

/-- In a dictionary the last entry with a key is the first one. -/
theorem get?_reverse {xs : Entries α} (h : (keys xs).Nodup) (key : String) :
    get? xs.reverse key = get? xs key := by
  rw [← get?_ofList, ofList_eq_self h]

end Entries

end Schemata
