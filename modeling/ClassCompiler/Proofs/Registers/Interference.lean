import ClassCompiler.Registers.Interference
import ClassCompiler.Text.NameMap.Lemmas

/-! Which nodes and edges a graph has after each operation on it. Two variables are joined in
the graph of a method exactly when they are written or live together after some
instruction. -/

namespace ClassCompiler
set_option autoImplicit false

namespace InterferenceGraph
variable {graph : InterferenceGraph} {a b x y : String} {names : List String}

theorem contains_iff : graph.contains x = true ↔ ∃ set, graph.adjacency.get? x = some set :=
  NameMap.contains_iff

theorem mem_nodes_iff : x ∈ graph.nodes ↔ graph.contains x = true :=
  NameMap.mem_keys_iff.trans contains_iff.symm

theorem contains_of_mem_neighbours (h : y ∈ graph.neighbours x) : graph.contains x = true := by
  rw [contains_iff]
  unfold neighbours at h
  cases hx : graph.adjacency.get? x with
  | none =>
    rw [hx] at h
    exact absurd h (NameSet.not_mem_empty y)
  | some set => exact ⟨set, rfl⟩

@[simp] theorem contains_empty : ({} : InterferenceGraph).contains x = false := rfl

theorem get?_addNode : (graph.addNode a).adjacency.get? x =
    if x = a then some (graph.neighbours a) else graph.adjacency.get? x := by
  unfold addNode
  split
  · rename_i present
    obtain ⟨set, hset⟩ := contains_iff.mp present
    split
    · rename_i same
      rw [same, neighbours, hset]
      rfl
    · rfl
  · rename_i absent
    have missing : graph.adjacency.get? a = none :=
      Option.eq_none_iff_forall_ne_some.mpr fun set hset => absent (contains_iff.mpr ⟨set, hset⟩)
    rw [NameMap.get?_insert, neighbours, missing]
    rfl

@[simp] theorem contains_addNode :
    (graph.addNode a).contains x = true ↔ x = a ∨ graph.contains x = true := by
  simp only [contains_iff, get?_addNode]
  by_cases h : x = a <;> simp [h]

@[simp] theorem neighbours_addNode : (graph.addNode a).neighbours x = graph.neighbours x := by
  simp only [neighbours, get?_addNode]
  split
  · rename_i same
    rw [same]
    rfl
  · rfl

@[simp] theorem contains_link :
    (graph.link a b).contains x = true ↔ x = a ∨ graph.contains x = true := by
  simp only [contains_iff, link, NameMap.get?_insert]
  by_cases h : x = a <;> simp [h]

@[simp] theorem mem_neighbours_link :
    y ∈ (graph.link a b).neighbours x ↔ y ∈ graph.neighbours x ∨ x = a ∧ y = b := by
  simp only [neighbours, link, NameMap.get?_insert]
  by_cases h : x = a
  · simp [h, or_comm]
  · simp [h]

theorem contains_addEdge (ha : graph.contains a = true) (hb : graph.contains b = true) :
    (graph.addEdge a b).contains x = true ↔ graph.contains x = true := by
  unfold addEdge
  split
  · rfl
  · simp only [contains_link]
    constructor
    · rintro (rfl | rfl | h)
      · exact hb
      · exact ha
      · exact h
    · exact fun h => .inr (.inr h)

theorem mem_neighbours_addEdge : y ∈ (graph.addEdge a b).neighbours x ↔
    y ∈ graph.neighbours x ∨ x ≠ y ∧ (x = a ∧ y = b ∨ x = b ∧ y = a) := by
  unfold addEdge
  split
  · rename_i same
    subst same
    constructor
    · exact .inl
    · rintro (h | ⟨differs, h | h⟩)
      · exact h
      all_goals exact absurd (h.1.trans h.2.symm) differs
  · rename_i differs
    simp only [mem_neighbours_link]
    constructor
    · rintro ((h | ⟨rfl, rfl⟩) | ⟨rfl, rfl⟩)
      · exact .inl h
      · exact .inr ⟨differs, .inl ⟨rfl, rfl⟩⟩
      · exact .inr ⟨Ne.symm differs, .inr ⟨rfl, rfl⟩⟩
    · rintro (h | ⟨-, h | h⟩)
      · exact .inl (.inl h)
      · exact .inl (.inr h)
      · exact .inr h

theorem mem_neighbours_foldl_addEdge :
    y ∈ (names.foldl (fun graph other => graph.addEdge a other) graph).neighbours x ↔
      y ∈ graph.neighbours x ∨ x ≠ y ∧ (x = a ∧ y ∈ names ∨ y = a ∧ x ∈ names) := by
  induction names generalizing graph with
  | nil => simp
  | cons name names ih =>
    rw [List.foldl_cons, ih, mem_neighbours_addEdge]
    simp only [List.mem_cons]
    grind

theorem contains_foldl_addEdge (ha : graph.contains a = true)
    (all : ∀ name ∈ names, graph.contains name = true) :
    (names.foldl (fun graph other => graph.addEdge a other) graph).contains x = true ↔
      graph.contains x = true := by
  induction names generalizing graph with
  | nil => rfl
  | cons name names ih =>
    have same : ∀ {z}, (graph.addEdge a name).contains z = true ↔ graph.contains z = true :=
      contains_addEdge ha (all name List.mem_cons_self)
    rw [List.foldl_cons, ih (same.mpr ha), same]
    exact fun other hother => same.mpr (all other (List.mem_cons_of_mem _ hother))

theorem mem_neighbours_joinAll : y ∈ (graph.joinAll names).neighbours x ↔
    y ∈ graph.neighbours x ∨ x ≠ y ∧ x ∈ names ∧ y ∈ names := by
  induction names generalizing graph with
  | nil => simp [joinAll]
  | cons name names ih =>
    rw [joinAll, ih, mem_neighbours_foldl_addEdge]
    simp only [List.mem_cons]
    grind

theorem contains_joinAll (all : ∀ name ∈ names, graph.contains name = true) :
    (graph.joinAll names).contains x = true ↔ graph.contains x = true := by
  induction names generalizing graph with
  | nil => rfl
  | cons name names ih =>
    have rest : ∀ other ∈ names, graph.contains other = true := fun other hother =>
      all other (List.mem_cons_of_mem _ hother)
    have same := fun {z} => contains_foldl_addEdge (x := z) (all name List.mem_cons_self) rest
    rw [joinAll, ih fun other hother => same.mpr (rest other hother), same]

theorem contains_foldl_addNode : (names.foldl addNode graph).contains x = true ↔
    x ∈ names ∨ graph.contains x = true := by
  induction names generalizing graph with
  | nil => simp
  | cons name names ih =>
    rw [List.foldl_cons, ih, contains_addNode, List.mem_cons]
    grind

theorem neighbours_foldl_addNode :
    (names.foldl addNode graph).neighbours x = graph.neighbours x := by
  induction names generalizing graph with
  | nil => rfl
  | cons name names ih => rw [List.foldl_cons, ih, neighbours_addNode]

/-- The nodes that are joined for some instructions are among those of the graph. -/
theorem joinedAt {sets : List (NameSet × NameSet)} :
    (∀ z, (sets.foldl (fun graph (defs, liveOut) =>
        graph.joinAll ((defs.union liveOut).filter graph.contains).toList) graph).contains z = true ↔
      graph.contains z = true) ∧
    (y ∈ (sets.foldl (fun graph (defs, liveOut) =>
        graph.joinAll ((defs.union liveOut).filter graph.contains).toList) graph).neighbours x ↔
      y ∈ graph.neighbours x ∨ x ≠ y ∧ graph.contains x = true ∧ graph.contains y = true ∧
        ∃ set ∈ sets, x ∈ set.1.union set.2 ∧ y ∈ set.1.union set.2) := by
  induction sets generalizing graph with
  | nil => simp
  | cons set sets ih =>
    obtain ⟨defs, liveOut⟩ := set
    have mem : ∀ z, z ∈ ((defs.union liveOut).filter graph.contains).toList ↔
        z ∈ defs.union liveOut ∧ graph.contains z = true := fun z => NameSet.mem_filter
    have same : ∀ z, (graph.joinAll ((defs.union liveOut).filter graph.contains).toList).contains z
        = true ↔ graph.contains z = true := fun z =>
      contains_joinAll fun name hname => ((mem name).mp hname).2
    obtain ⟨contained, joined⟩ :=
      @ih (graph.joinAll ((defs.union liveOut).filter graph.contains).toList)
    refine ⟨fun z => (contained z).trans (same z), joined.trans ?_⟩
    simp only [mem_neighbours_joinAll, mem, same, List.mem_cons, or_and_right, exists_or,
      exists_eq_left]
    clear ih mem same contained joined
    grind

theorem contains_build {liveness : Liveness} :
    (build names liveness).contains x = true ↔ x ∈ names := by
  rw [build, (joinedAt (x := x) (y := x)).1, contains_foldl_addNode]
  simp

/-- Two variables are joined exactly when they are written or live together after an
instruction. -/
theorem mem_neighbours_build {liveness : Liveness} : y ∈ (build names liveness).neighbours x ↔
    x ≠ y ∧ x ∈ names ∧ y ∈ names ∧
      ∃ set ∈ liveness.flow.defs.zip liveness.liveOut,
        x ∈ set.1.union set.2 ∧ y ∈ set.1.union set.2 := by
  have bare : ∀ z, (names.foldl addNode ({} : InterferenceGraph)).contains z = true ↔ z ∈ names := by
    intro z
    simp [contains_foldl_addNode]
  rw [build, joinedAt.2, neighbours_foldl_addNode, bare, bare]
  exact or_iff_right (NameSet.not_mem_empty y)

end InterferenceGraph
end ClassCompiler
