import ClassCompiler.Text.NameMap

/-! What each operation on a map does to the values under its names. A map is determined
by these values, so no other fact about its entries is needed. -/

namespace ClassCompiler.NameMap
set_option autoImplicit false

variable {α β : Type}

@[simp] theorem get?_empty (key : String) : (empty : NameMap α).get? key = none := rfl

theorem find?_insertEntry (key other : String) (value : α) (list : List (String × α)) :
    (insertEntry key value list).find? (fun entry => entry.1 == other) =
      if other = key then some (key, value) else list.find? fun entry => entry.1 == other := by
  induction list with
  | nil =>
    by_cases h : other = key
    · simp [insertEntry, h]
    · simp [insertEntry, h, Ne.symm h]
  | cons head rest ih =>
    simp only [insertEntry]
    split
    · by_cases h : other = key
      · simp [h]
      · simp [h, Ne.symm h]
    · split
      · rename_i same
        by_cases h : other = key
        · simp [h]
        · simp [h, Ne.symm h, ← same]
      · rename_i differs
        by_cases h : head.1 = other
        · have : ¬ other = key := fun e => differs (e.symm.trans h.symm)
          simp [h, this]
        · simp [h, ih]

theorem get?_insert (map : NameMap α) (key other : String) (value : α) :
    (map.insert key value).get? other = if other = key then some value else map.get? other := by
  simp only [get?, insert, find?_insertEntry]
  split <;> rfl

theorem find?_eq_some_iff_mem {list : List (String × α)}
    (sorted : list.Pairwise fun a b => a.1 < b.1) {entry : String × α} :
    list.find? (fun other => other.1 == entry.1) = some entry ↔ entry ∈ list := by
  induction list with
  | nil => simp
  | cons head rest ih =>
    obtain ⟨above, tail⟩ := List.pairwise_cons.mp sorted
    by_cases h : head.1 = entry.1
    · have absent : entry ∉ rest := fun he => String.lt_irrefl _ (h ▸ above entry he)
      simp [h, absent, eq_comm]
    · have differs : entry ≠ head := fun he => h (he ▸ rfl)
      simp [h, differs, ih tail]

theorem get?_eq_some_iff {map : NameMap α} {key : String} {value : α} :
    map.get? key = some value ↔ (key, value) ∈ map.entries := by
  rw [← find?_eq_some_iff_mem map.sorted]
  constructor
  · intro h
    obtain ⟨entry, found, rfl⟩ := Option.map_eq_some_iff.mp h
    have same : entry.1 = key := by simpa using List.find?_some found
    rw [found, ← same]
  · intro h
    simp [get?, h]

theorem contains_eq_isSome_get? (map : NameMap α) (key : String) :
    map.contains key = (map.get? key).isSome := by
  rw [Bool.eq_iff_iff]
  simp [contains, get?, List.find?_isSome]

theorem mem_keys_iff {map : NameMap α} {key : String} :
    key ∈ map.keys ↔ ∃ value, map.get? key = some value := by
  simp only [keys, List.mem_map, get?_eq_some_iff]
  constructor
  · rintro ⟨⟨_, value⟩, he, rfl⟩
    exact ⟨value, he⟩
  · rintro ⟨value, he⟩
    exact ⟨_, he, rfl⟩

theorem contains_iff {map : NameMap α} {key : String} :
    map.contains key = true ↔ ∃ value, map.get? key = some value := by
  rw [contains_eq_isSome_get?, Option.isSome_iff_exists]

theorem length_keys (map : NameMap α) : map.keys.length = map.size := by simp [keys, size]

theorem get?_filter (map : NameMap α) (keep : String → α → Bool) (key : String) :
    (map.filter keep).get? key = (map.get? key).filter (keep key) := by
  apply Option.ext
  intro value
  simp only [get?_eq_some_iff, filter, List.mem_filter, Option.filter_eq_some_iff]

theorem get?_erase (map : NameMap α) (key other : String) :
    (map.erase key).get? other = if other = key then none else map.get? other := by
  rw [erase, get?_filter]
  by_cases h : other = key <;> cases map.get? other <;> simp [h]

theorem get?_mapValues (map : NameMap α) (f : String → α → β) (key : String) :
    (map.mapValues f).get? key = (map.get? key).map (f key) := by
  apply Option.ext
  intro value
  simp only [get?_eq_some_iff, mapValues, List.mem_map, Option.map_eq_some_iff, Prod.mk.injEq]
  constructor
  · rintro ⟨entry, he, rfl, rfl⟩
    exact ⟨entry.2, he, rfl⟩
  · rintro ⟨a, ha, rfl⟩
    exact ⟨(key, a), ha, rfl, rfl⟩

theorem nodup_entries (map : NameMap α) : map.entries.Nodup := by
  apply map.sorted.imp
  intro a b before same
  exact String.lt_irrefl _ (same ▸ before)

theorem perm_insertEntry {key : String} {value : α} {list : List (String × α)}
    (absent : ∀ entry ∈ list, entry.1 ≠ key) :
    (insertEntry key value list).Perm ((key, value) :: list) := by
  induction list with
  | nil => exact .refl _
  | cons head rest ih =>
    obtain ⟨apart, absent⟩ := List.forall_mem_cons.mp absent
    simp only [insertEntry]
    split
    · exact .refl _
    · rw [if_neg (Ne.symm apart)]
      exact ((ih absent).cons head).trans (.swap _ _ _)

theorem perm_entries_insert {map : NameMap α} {key : String} (h : map.get? key = none) (value : α) :
    (map.insert key value).entries.Perm ((key, value) :: map.entries) := by
  refine perm_insertEntry fun entry he same => ?_
  have found : map.get? key = some entry.2 := get?_eq_some_iff.mpr (same ▸ he)
  rw [h] at found
  cases found

theorem ext_get? {a b : NameMap α} (h : ∀ key, a.get? key = b.get? key) : a = b := by
  have same : ∀ entry, entry ∈ a.entries ↔ entry ∈ b.entries := fun entry => by
    rw [← get?_eq_some_iff, ← get?_eq_some_iff, h]
  have ordered : a.entries = b.entries := by
    refine List.Perm.eq_of_pairwise (fun x y _ _ hxy hyx => ?_) a.sorted b.sorted
      ((List.perm_ext_iff_of_nodup (nodup_entries a) (nodup_entries b)).mpr same)
    exact absurd (String.lt_trans hxy hyx) (String.lt_irrefl _)
  cases a
  cases b
  simpa using ordered

theorem get?_foldl_insert {list : List (String × α)} (sorted : list.Pairwise fun a b => a.1 < b.1)
    (map : NameMap α) (key : String) :
    (list.foldl (fun map entry => map.insert entry.1 entry.2) map).get? key =
      match list.find? (fun entry => entry.1 == key) with
      | some entry => some entry.2
      | none => map.get? key := by
  induction list generalizing map with
  | nil => rfl
  | cons head rest ih =>
    obtain ⟨above, tail⟩ := List.pairwise_cons.mp sorted
    rw [List.foldl_cons, ih tail, List.find?_cons]
    by_cases h : head.1 = key
    · have later : rest.find? (fun entry => entry.1 == key) = none := by
        refine List.find?_eq_none.mpr fun entry he same => ?_
        exact String.lt_irrefl _ ((h.trans (eq_of_beq same).symm) ▸ above entry he)
      simp [later, h, get?_insert]
    · have differs : (head.1 == key) = false := beq_false_of_ne h
      simp [differs, get?_insert, Ne.symm h]

theorem ofList_entries (map : NameMap α) : ofList map.entries = map := by
  refine ext_get? fun key => ?_
  rw [ofList, get?_foldl_insert map.sorted]
  unfold get?
  cases map.entries.find? (fun entry => entry.1 == key) <;> rfl

end ClassCompiler.NameMap
