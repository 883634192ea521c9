/-! Finite maps from names to values, kept in increasing order of the names.
Names are compared by code point, so two maps with the same entries are equal. -/

namespace ClassCompiler
set_option autoImplicit false

/-- A map from names: its entries in strictly increasing order of their names. -/
structure NameMap (α : Type) where
  entries : List (String × α)
  sorted : entries.Pairwise fun a b => a.1 < b.1

namespace NameMap
variable {α β : Type}

/-- Puts a value under a name into a list of entries, in place of an older one. -/
def insertEntry (key : String) (value : α) : List (String × α) → List (String × α)
  | [] => [(key, value)]
  | entry :: rest =>
    if key < entry.1 then (key, value) :: entry :: rest
    else if key = entry.1 then (key, value) :: rest
    else entry :: insertEntry key value rest

theorem mem_insertEntry {key : String} {value : α} {list : List (String × α)}
    {entry : String × α} (h : entry ∈ insertEntry key value list) :
    entry = (key, value) ∨ entry ∈ list := by
  induction list with
  | nil => simpa [insertEntry] using h
  | cons head rest ih =>
    simp only [insertEntry] at h
    split at h
    · simpa using h
    · split at h
      · rcases List.mem_cons.mp h with h | h
        · exact .inl h
        · exact .inr (List.mem_cons_of_mem _ h)
      · rcases List.mem_cons.mp h with h | h
        · exact .inr (h ▸ List.mem_cons_self)
        · rcases ih h with h | h
          · exact .inl h
          · exact .inr (List.mem_cons_of_mem _ h)

theorem insertEntry_sorted (key : String) (value : α) {list : List (String × α)}
    (h : list.Pairwise fun a b => a.1 < b.1) :
    (insertEntry key value list).Pairwise fun a b => a.1 < b.1 := by
  induction list with
  | nil => simp [insertEntry]
  | cons head rest ih =>
    obtain ⟨above, tail⟩ := List.pairwise_cons.mp h
    simp only [insertEntry]
    split
    · rename_i before
      refine List.pairwise_cons.mpr ⟨fun entry he => ?_, h⟩
      rcases List.mem_cons.mp he with he | he
      · exact he ▸ before
      · exact String.lt_trans before (above entry he)
    · rename_i notBefore
      split
      · rename_i same
        exact List.pairwise_cons.mpr ⟨fun entry he => same ▸ above entry he, tail⟩
      · rename_i other
        refine List.pairwise_cons.mpr ⟨fun entry he => ?_, ih tail⟩
        rcases mem_insertEntry he with he | he
        · subst he
          exact String.not_le.mp fun le => other (String.le_antisymm le notBefore)
        · exact above entry he

def empty : NameMap α := ⟨[], .nil⟩

instance : EmptyCollection (NameMap α) := ⟨empty⟩
instance : Inhabited (NameMap α) := ⟨empty⟩

instance [DecidableEq α] : DecidableEq (NameMap α) := fun a b =>
  decidable_of_iff (a.entries = b.entries) (by cases a; cases b; simp)

def insert (map : NameMap α) (key : String) (value : α) : NameMap α :=
  ⟨insertEntry key value map.entries, insertEntry_sorted key value map.sorted⟩

/-- Keeps the entries that a test accepts. -/
def filter (map : NameMap α) (keep : String → α → Bool) : NameMap α :=
  ⟨map.entries.filter fun entry => keep entry.1 entry.2, map.sorted.filter _⟩

def erase (map : NameMap α) (key : String) : NameMap α :=
  map.filter fun other _ => other ≠ key

/-- Changes every value and no name. -/
def mapValues (map : NameMap α) (f : String → α → β) : NameMap β :=
  ⟨map.entries.map fun entry => (entry.1, f entry.1 entry.2), by
    rw [List.pairwise_map]
    exact map.sorted⟩

def get? (map : NameMap α) (key : String) : Option α :=
  (map.entries.find? fun entry => entry.1 == key).map (·.2)

def contains (map : NameMap α) (key : String) : Bool :=
  map.entries.any fun entry => entry.1 == key

def keys (map : NameMap α) : List String := map.entries.map (·.1)

/-- The values in the order of their names. -/
def values (map : NameMap α) : List α := map.entries.map (·.2)

def size (map : NameMap α) : Nat := map.entries.length

def isEmpty (map : NameMap α) : Bool := map.entries.isEmpty

/-- The map of a list of entries; of two entries with one name the later counts. -/
def ofList (list : List (String × α)) : NameMap α :=
  list.foldl (fun map entry => map.insert entry.1 entry.2) empty

end NameMap
end ClassCompiler
