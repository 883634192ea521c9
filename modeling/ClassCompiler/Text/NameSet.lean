/-! Finite sets of names, kept in increasing order, so that two sets with the same
members are equal. -/

namespace ClassCompiler
set_option autoImplicit false

/-- A set of names: its members in strictly increasing order. -/
structure NameSet where
  toList : List String
  sorted : toList.Pairwise (· < ·)

namespace NameSet

/-- Puts a name into its place in an increasing list, unless it is there. -/
def insertName (name : String) : List String → List String
  | [] => [name]
  | head :: rest =>
    if name < head then name :: head :: rest
    else if name = head then head :: rest
    else head :: insertName name rest

@[simp] theorem mem_insertName {name other : String} {list : List String} :
    other ∈ insertName name list ↔ other = name ∨ other ∈ list := by
  induction list with
  | nil => simp [insertName]
  | cons head rest ih =>
    simp only [insertName]
    split
    · simp
    · split
      · rename_i same
        simp [same]
      · simp only [List.mem_cons, ih]
        constructor
        · rintro (h | h | h) <;> simp [h]
        · rintro (h | h | h) <;> simp [h]

theorem insertName_sorted (name : String) {list : List String}
    (h : list.Pairwise (· < ·)) : (insertName name list).Pairwise (· < ·) := by
  induction list with
  | nil => simp [insertName]
  | cons head rest ih =>
    obtain ⟨above, tail⟩ := List.pairwise_cons.mp h
    simp only [insertName]
    split
    · rename_i before
      refine List.pairwise_cons.mpr ⟨fun other ho => ?_, h⟩
      rcases List.mem_cons.mp ho with ho | ho
      · exact ho ▸ before
      · exact String.lt_trans before (above other ho)
    · rename_i notBefore
      split
      · exact h
      · rename_i differs
        refine List.pairwise_cons.mpr ⟨fun other ho => ?_, ih tail⟩
        rcases mem_insertName.mp ho with ho | ho
        · subst ho
          exact String.not_le.mp fun le => differs (String.le_antisymm le notBefore)
        · exact above other ho

def empty : NameSet := ⟨[], .nil⟩

instance : EmptyCollection NameSet := ⟨empty⟩
instance : Inhabited NameSet := ⟨empty⟩
instance : Membership String NameSet := ⟨fun set name => name ∈ set.toList⟩

instance : DecidableEq NameSet := fun a b =>
  decidable_of_iff (a.toList = b.toList) (by cases a; cases b; simp)

instance (name : String) (set : NameSet) : Decidable (name ∈ set) :=
  inferInstanceAs (Decidable (name ∈ set.toList))

def insert (set : NameSet) (name : String) : NameSet :=
  ⟨insertName name set.toList, insertName_sorted name set.sorted⟩

def filter (set : NameSet) (keep : String → Bool) : NameSet :=
  ⟨set.toList.filter keep, set.sorted.filter _⟩

def erase (set : NameSet) (name : String) : NameSet := set.filter (· ≠ name)

/-- The members of a set and the names of a list. -/
def insertAll (set : NameSet) (names : List String) : NameSet :=
  names.foldl insert set

def union (a b : NameSet) : NameSet := a.insertAll b.toList

/-- The members of the first set that are not in the second. -/
def diff (a b : NameSet) : NameSet := a.filter fun name => !decide (name ∈ b)

/-- The set of the names of a list. -/
def ofList (names : List String) : NameSet := empty.insertAll names

def size (set : NameSet) : Nat := set.toList.length

@[simp] theorem not_mem_empty (name : String) : name ∉ (empty : NameSet) :=
  List.not_mem_nil

@[simp] theorem mem_insert {set : NameSet} {name other : String} :
    other ∈ set.insert name ↔ other = name ∨ other ∈ set := mem_insertName

@[simp] theorem mem_filter {set : NameSet} {keep : String → Bool} {name : String} :
    name ∈ set.filter keep ↔ name ∈ set ∧ keep name = true := List.mem_filter

@[simp] theorem mem_erase {set : NameSet} {name other : String} :
    other ∈ set.erase name ↔ other ∈ set ∧ other ≠ name := by simp [erase]

@[simp] theorem mem_insertAll {set : NameSet} {names : List String} {other : String} :
    other ∈ set.insertAll names ↔ other ∈ set ∨ other ∈ names := by
  induction names generalizing set with
  | nil => simp [insertAll]
  | cons head rest ih =>
    have step : set.insertAll (head :: rest) = (set.insert head).insertAll rest := rfl
    simp only [step, ih, mem_insert, List.mem_cons]
    constructor
    · rintro ((h | h) | h) <;> simp [h]
    · rintro (h | h | h) <;> simp [h]

@[simp] theorem mem_union {a b : NameSet} {name : String} :
    name ∈ a.union b ↔ name ∈ a ∨ name ∈ b := mem_insertAll

@[simp] theorem mem_diff {a b : NameSet} {name : String} :
    name ∈ a.diff b ↔ name ∈ a ∧ name ∉ b := by simp [diff]

@[simp] theorem mem_ofList {names : List String} {name : String} :
    name ∈ ofList names ↔ name ∈ names := by simp [ofList]

end NameSet
end ClassCompiler
