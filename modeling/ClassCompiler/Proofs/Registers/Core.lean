import ClassCompiler.Proofs.Registers.Colouring

/-! Which graphs can be taken apart within a limit. The nodes that are never removed are the
largest part of the graph in which every node keeps as many neighbours as the limit, in whatever
order the others are removed; `simplify` fails exactly when this core has a node, and the number it
then gives is enough. -/

namespace ClassCompiler
set_option autoImplicit false

namespace InterferenceGraph
variable {graph : InterferenceGraph} {part core : NameSet} {a b x y name : String}
  {limit limit' count required : Nat} {order : List String}

structure Undirected (graph : InterferenceGraph) : Prop where
  symmetric : ∀ {x y}, y ∈ graph.neighbours x → x ∈ graph.neighbours y
  loopless : ∀ {x}, x ∉ graph.neighbours x

theorem undirected_empty : ({} : InterferenceGraph).Undirected :=
  ⟨fun h => absurd h (NameSet.not_mem_empty _), NameSet.not_mem_empty _⟩

theorem Undirected.addNode (h : graph.Undirected) : (graph.addNode a).Undirected := by
  constructor
  · intro x y hxy
    rw [neighbours_addNode] at hxy ⊢
    exact h.symmetric hxy
  · intro x
    rw [neighbours_addNode]
    exact h.loopless

theorem Undirected.addEdge (h : graph.Undirected) : (graph.addEdge a b).Undirected := by
  constructor
  · intro x y hxy
    rw [mem_neighbours_addEdge] at hxy ⊢
    rcases hxy with hxy | ⟨differs, ends⟩
    · exact .inl (h.symmetric hxy)
    · exact .inr ⟨differs.symm, ends.symm.imp And.symm And.symm⟩
  · intro x hxx
    rcases mem_neighbours_addEdge.mp hxx with hxx | ⟨differs, _⟩
    · exact h.loopless hxx
    · exact differs rfl

theorem Undirected.remove (h : graph.Undirected) : (graph.remove name).Undirected := by
  constructor
  · intro x y hxy
    rw [mem_neighbours_remove] at hxy ⊢
    exact ⟨h.symmetric hxy.1, hxy.2.2, hxy.2.1⟩
  · intro x hxx
    exact h.loopless (mem_neighbours_remove.mp hxx).1

theorem Undirected.contains (h : graph.Undirected) (hxy : y ∈ graph.neighbours x) :
    graph.contains y = true := contains_of_mem_neighbours (h.symmetric hxy)

theorem undirected_build {names : List String} {liveness : Liveness} :
    (build names liveness).Undirected := by
  constructor
  · intro x y hxy
    obtain ⟨differs, hx, hy, set, hset, hx', hy'⟩ := mem_neighbours_build.mp hxy
    exact mem_neighbours_build.mpr ⟨differs.symm, hy, hx, set, hset, hy', hx'⟩
  · intro x hxx
    exact (mem_neighbours_build.mp hxx).1 rfl

def degreeIn (graph : InterferenceGraph) (part : NameSet) (name : String) : Nat :=
  ((graph.neighbours name).filter fun other => decide (other ∈ part)).size

/-- A number is one more than the greatest number of neighbours that a node of a part has
inside it. -/
def Demands (graph : InterferenceGraph) (part : NameSet) (required : Nat) : Prop :=
  (∃ x ∈ part, required = graph.degreeIn part x + 1) ∧
    ∀ x ∈ part, graph.degreeIn part x < required

/-- A part of a graph in which every node has as many neighbours as a limit. -/
structure Dense (graph : InterferenceGraph) (limit : Nat) (part : NameSet) : Prop where
  inside : ∀ x ∈ part, graph.contains x = true
  many : ∀ x ∈ part, limit ≤ graph.degreeIn part x

/-- The dense part that contains all others. -/
structure Core (graph : InterferenceGraph) (limit : Nat) (core : NameSet) : Prop
    extends Dense graph limit core where
  greatest : ∀ {part}, Dense graph limit part → ∀ x ∈ part, x ∈ core

theorem degreeIn_le_degree : graph.degreeIn part x ≤ graph.degree x :=
  List.length_filter_le _ _

theorem degreeIn_mono (h : ∀ y ∈ part, y ∈ core) : graph.degreeIn part x ≤ graph.degreeIn core x := by
  refine NameSet.length_le_size (NameSet.nodup_toList _) fun y hy => ?_
  obtain ⟨joined, hy⟩ := NameSet.mem_filter.mp hy
  exact NameSet.mem_filter.mpr ⟨joined, by simpa using h y (by simpa using hy)⟩

theorem degreeIn_remove (outside : name ∉ part) (differs : x ≠ name) :
    (graph.remove name).degreeIn part x = graph.degreeIn part x := by
  refine congrArg NameSet.size (NameSet.ext fun y => ?_)
  simp only [NameSet.mem_filter, mem_neighbours_remove, decide_eq_true_eq]
  constructor
  · rintro ⟨⟨joined, _⟩, hy⟩
    exact ⟨joined, hy⟩
  · rintro ⟨joined, hy⟩
    exact ⟨⟨joined, differs, fun same => outside (same ▸ hy)⟩, hy⟩

theorem Dense.of_le (dense : Dense graph limit' part) (h : limit ≤ limit') :
    Dense graph limit part :=
  ⟨dense.inside, fun x hx => Nat.le_trans h (dense.many x hx)⟩

theorem Dense.not_mem (dense : Dense graph limit part) (few : graph.degree name < limit) :
    name ∉ part := by
  intro h
  have enough := dense.many name h
  have all : graph.degreeIn part name ≤ graph.degree name := degreeIn_le_degree
  omega

/-- What a removal leaves dense is what was dense and did not have the node. -/
theorem dense_remove_iff : Dense (graph.remove name) limit part ↔
    Dense graph limit part ∧ name ∉ part := by
  constructor
  · intro dense
    have outside : name ∉ part := fun h => (contains_remove.mp (dense.inside name h)).2 rfl
    refine ⟨⟨fun x hx => (contains_remove.mp (dense.inside x hx)).1, fun x hx => ?_⟩, outside⟩
    rw [← degreeIn_remove outside (contains_remove.mp (dense.inside x hx)).2]
    exact dense.many x hx
  · rintro ⟨dense, outside⟩
    have differs : ∀ x ∈ part, x ≠ name := fun x hx same => outside (same ▸ hx)
    refine ⟨fun x hx => contains_remove.mpr ⟨dense.inside x hx, differs x hx⟩, fun x hx => ?_⟩
    rw [degreeIn_remove outside (differs x hx)]
    exact dense.many x hx

/-- The core is not affected by the removal of a node with few neighbours. -/
theorem Core.of_remove (few : graph.degree name < limit)
    (largest : Core (graph.remove name) limit core) : Core graph limit core where
  toDense := (dense_remove_iff.mp largest.toDense).1
  greatest dense := largest.greatest (dense_remove_iff.mpr ⟨dense, dense.not_mem few⟩)

theorem Removal.nodup (removal : Removal limit graph order) :
    order.Nodup ∧ ∀ x, x ∈ order ↔ graph.contains x = true := by
  induction removal with
  | done empty => simp [empty]
  | @next graph name rest present few others ih =>
    obtain ⟨distinct, all⟩ := ih
    refine ⟨List.nodup_cons.mpr ⟨fun h => ?_, distinct⟩, fun x => ?_⟩
    · exact (contains_remove.mp ((all name).mp h)).2 rfl
    · rw [List.mem_cons, all, contains_remove]
      by_cases same : x = name
      · simp [same, present]
      · simp [same]

/-- No dense part has a node that is removed. -/
theorem Removal.not_mem_of_dense (positive : 0 < limit) (removal : Removal limit graph order)
    (dense : Dense graph limit part) : ∀ x, x ∉ part := by
  induction removal with
  | done empty =>
    intro x hx
    have present := dense.inside x hx
    rw [empty] at present
    cases present
  | next _ few _ ih =>
    exact ih (dense_remove_iff.mpr ⟨dense, dense.not_mem (few.resolve_left (by omega))⟩)

theorem degreeIn_nodes (h : graph.Undirected) :
    graph.degreeIn (.ofList graph.nodes) x = graph.degree x := by
  refine congrArg NameSet.size (NameSet.ext fun y => ?_)
  simp only [NameSet.mem_filter, NameSet.mem_ofList, mem_nodes_iff, decide_eq_true_eq]
  exact and_iff_left_of_imp h.contains

theorem exists_degree_eq_maxDegree (present : graph.contains name = true) :
    ∃ x, graph.contains x = true ∧ graph.degree x = graph.maxDegree := by
  rcases (foldl_max_spec (graph.nodes.map graph.degree) 0).2 with zero | mem
  · have below := degree_le_maxDegree present
    rw [show graph.maxDegree = 0 from zero] at below ⊢
    exact ⟨name, present, Nat.le_zero.mp below⟩
  · obtain ⟨x, hx, same⟩ := List.mem_map.mp mem
    exact ⟨x, mem_nodes_iff.mp hx, same⟩

theorem core_nodes (h : graph.Undirected) (all : ∀ x, graph.contains x = true →
    limit ≤ graph.degree x) : Core graph limit (.ofList graph.nodes) where
  inside x hx := mem_nodes_iff.mp (NameSet.mem_ofList.mp hx)
  many x hx := by
    rw [degreeIn_nodes h]
    exact all x (mem_nodes_iff.mp (NameSet.mem_ofList.mp hx))
  greatest dense x hx := NameSet.mem_ofList.mpr (mem_nodes_iff.mpr (dense.inside x hx))

theorem demands_nodes (h : graph.Undirected) (present : graph.contains name = true) :
    Demands graph (.ofList graph.nodes) (graph.maxDegree + 1) := by
  constructor
  · obtain ⟨x, hx, same⟩ := exists_degree_eq_maxDegree present
    refine ⟨x, NameSet.mem_ofList.mpr (mem_nodes_iff.mpr hx), ?_⟩
    rw [degreeIn_nodes h, same]
  · intro x hx
    rw [degreeIn_nodes h]
    have := degree_le_maxDegree (mem_nodes_iff.mp (NameSet.mem_ofList.mp hx))
    omega

theorem Demands.of_remove (outside : name ∉ part)
    (demands : Demands (graph.remove name) part required) : Demands graph part required := by
  have same : ∀ x ∈ part, (graph.remove name).degreeIn part x = graph.degreeIn part x :=
    fun x hx => degreeIn_remove outside fun here => outside (here ▸ hx)
  obtain ⟨⟨x, hx, exact⟩, below⟩ := demands
  refine ⟨⟨x, hx, by rw [← same x hx, exact]⟩, fun y hy => ?_⟩
  rw [← same y hy]
  exact below y hy

/-- A graph that is stuck is left with its core, and gives what the core demands. -/
theorem core_of_simplifyFor (h : graph.Undirected) (positive : 0 < limit)
    (stuck : simplifyFor count graph limit = .error required) :
    ∃ core, Core graph limit core ∧ Demands graph core required := by
  induction count generalizing graph with
  | zero => cases stuck
  | succ count ih =>
    simp only [simplifyFor] at stuck
    split at stuck
    · cases stuck
    · rename_i nonempty
      split at stuck
      · rename_i name found
        have few : graph.degree name < limit := by
          have := List.find?_some found
          simp only [Bool.or_eq_true, decide_eq_true_eq] at this
          omega
        cases rest : simplifyFor count (graph.remove name) limit with
        | ok order => simp [rest, bind, Except.bind, pure, Except.pure] at stuck
        | error smaller =>
          obtain rfl : smaller = required := by
            simpa [rest, bind, Except.bind] using stuck
          obtain ⟨core, largest, demands⟩ := ih h.remove rest
          exact ⟨core, largest.of_remove few,
            demands.of_remove (dense_remove_iff.mp largest.toDense).2⟩
      · rename_i none
        cases stuck
        have full : ∀ x, graph.contains x = true → limit ≤ graph.degree x := by
          intro x hx
          have := List.find?_eq_none.mp none x (mem_nodes_iff.mpr hx)
          simp only [Bool.or_eq_true, decide_eq_true_eq] at this
          omega
        obtain ⟨name, present⟩ : ∃ name, graph.contains name = true := by
          by_contra absent
          refine nonempty (isEmpty_iff.mpr fun x => ?_)
          exact Bool.eq_false_iff.mpr fun hx => absent ⟨x, hx⟩
        exact ⟨_, core_nodes h full, demands_nodes h present⟩

theorem core_of_simplify (h : graph.Undirected) (positive : 0 < limit)
    (stuck : graph.simplify limit = .error required) :
    ∃ core, Core graph limit core ∧ Demands graph core required :=
  core_of_simplifyFor h positive stuck

/-- A graph is taken apart exactly when none of its parts is dense. -/
theorem simplify_ok_iff (h : graph.Undirected) (positive : 0 < limit) :
    (∃ order, graph.simplify limit = .ok order) ↔
      ∀ part, Dense graph limit part → ∀ x, x ∉ part := by
  constructor
  · rintro ⟨order, ok⟩ part dense
    exact (removal_of_simplify ok).not_mem_of_dense positive dense
  · intro sparse
    cases result : graph.simplify limit with
    | ok order => exact ⟨order, rfl⟩
    | error required =>
      obtain ⟨core, largest, ⟨x, hx, _⟩, _⟩ := core_of_simplify h positive result
      exact absurd hx (sparse core largest.toDense x)

theorem exists_simplifyFor_zero : ∃ order, simplifyFor count graph 0 = .ok order := by
  induction count generalizing graph with
  | zero => exact ⟨[], rfl⟩
  | succ count ih =>
    unfold simplifyFor
    split
    · exact ⟨[], rfl⟩
    · rename_i nonempty
      split
      · rename_i name _
        obtain ⟨rest, hrest⟩ := @ih (graph.remove name)
        exact ⟨name :: rest, by rw [hrest]; rfl⟩
      · rename_i none
        refine absurd (isEmpty_iff.mpr fun x => ?_) nonempty
        refine Bool.eq_false_iff.mpr fun hx => ?_
        simpa using List.find?_eq_none.mp none x (mem_nodes_iff.mpr hx)

theorem exists_simplify_of_le (h : graph.Undirected) (positive : 0 < limit) (le : limit ≤ limit')
    (ok : graph.simplify limit = .ok order) : ∃ order', graph.simplify limit' = .ok order' := by
  refine (simplify_ok_iff h (Nat.lt_of_lt_of_le positive le)).mpr fun part dense => ?_
  exact (simplify_ok_iff h positive).mp ⟨order, ok⟩ part (dense.of_le le)

/-- What a graph that is stuck gives is enough for it: in a part that needs more, every node
would have more neighbours than it has in the core. -/
theorem exists_simplify_required (h : graph.Undirected) (positive : 0 < limit)
    (stuck : graph.simplify limit = .error required) :
    ∃ order, graph.simplify required = .ok order := by
  obtain ⟨core, largest, ⟨x, hx, exact⟩, below⟩ := core_of_simplify h positive stuck
  have more : limit ≤ required := by
    have := largest.many x hx
    omega
  -- A part that is too dense for the greater limit is so for the smaller one, and thus in the core.
  refine (simplify_ok_iff h (by omega)).mpr fun part dense y hy => ?_
  have inside := largest.greatest (dense.of_le more)
  have within : graph.degreeIn part y ≤ graph.degreeIn core y := degreeIn_mono inside
  have many := dense.many y hy
  have few := below y (inside y hy)
  omega

end InterferenceGraph

namespace Method
variable {method : Method} {budget budget' : Int} {error : AllocationError}

theorem undirected_interference : method.interference.Undirected :=
  InterferenceGraph.undirected_build

theorem exists_allocate_iff (enabled : 0 ≤ budget) : (∃ result, method.allocate budget = .ok result) ↔
    ∃ order, method.interference.simplify budget.toNat = .ok order := by
  rw [allocate_eq enabled]
  cases method.interference.simplify budget.toNat with
  | error required => simp
  | ok order => simp

theorem simplify_of_allocate (enabled : 0 ≤ budget) (stuck : method.allocate budget = .error error) :
    method.interference.simplify budget.toNat = .error error.required := by
  rw [allocate_eq enabled] at stuck
  cases result : method.interference.simplify budget.toNat with
  | error required =>
    rw [result] at stuck
    cases stuck
    rfl
  | ok order =>
    rw [result] at stuck
    cases stuck

theorem exists_allocate_zero (method : Method) : ∃ result, method.allocate 0 = .ok result :=
  (exists_allocate_iff (Int.le_refl 0)).mpr InterferenceGraph.exists_simplifyFor_zero

/-- Only a positive budget can be too small. -/
theorem pos_of_allocate (stuck : method.allocate budget = .error error) : 0 < budget := by
  rcases Int.lt_trichotomy budget 0 with negative | rfl | positive
  · rw [allocate, if_pos negative] at stuck
    cases stuck
  · obtain ⟨result, ok⟩ := exists_allocate_zero method
    rw [ok] at stuck
    cases stuck
  · exact positive

theorem exists_allocate_of_le (positive : 0 < budget) (le : budget ≤ budget')
    (ok : ∃ result, method.allocate budget = .ok result) :
    ∃ result, method.allocate budget' = .ok result := by
  obtain ⟨order, ok⟩ := (exists_allocate_iff (by omega)).mp ok
  exact (exists_allocate_iff (by omega)).mpr
    (InterferenceGraph.exists_simplify_of_le undirected_interference (by omega) (by omega) ok)

theorem exists_allocate_required (stuck : method.allocate budget = .error error) :
    ∃ result, method.allocate error.required = .ok result := by
  have positive := pos_of_allocate stuck
  refine (exists_allocate_iff (by omega)).mpr ?_
  exact InterferenceGraph.exists_simplify_required undirected_interference (by omega)
    (simplify_of_allocate (by omega) stuck)

end Method

/-- Whether the variables of a graph fit a limit depends on its core alone: they do when every part
has a node with few neighbours in it, and otherwise the number that is given is what the core
demands. So more registers never turn a fit into a misfit, and the number that is given after a
misfit is enough. -/
theorem fits_iff_sparse :
    (∀ (graph : InterferenceGraph) (limit : Nat), graph.Undirected → 0 < limit →
      ((∃ order, graph.simplify limit = .ok order) ↔
        ∀ part : NameSet, (∃ x, x ∈ part) → (∀ x ∈ part, graph.contains x = true) →
          ∃ x ∈ part, graph.degreeIn part x < limit) ∧
      (∀ order, graph.simplify limit = .ok order →
        order.Nodup ∧ ∀ x, x ∈ order ↔ graph.contains x = true) ∧
      ∀ required, graph.simplify limit = .error required →
        ∃ core, graph.Core limit core ∧ graph.Demands core required) ∧
    ∀ (method : Method) (budget : Int),
      (0 < budget → (∃ result, method.allocate budget = .ok result) →
        (∀ budget', budget ≤ budget' → ∃ result, method.allocate budget' = .ok result) ∧
        ∃ result, method.allocate 0 = .ok result) ∧
      ∀ error, method.allocate budget = .error error →
        ∃ result, method.allocate error.required = .ok result := by
  refine ⟨fun graph limit h positive => ⟨?_, ?_, ?_⟩, fun method budget => ⟨?_, ?_⟩⟩
  · rw [InterferenceGraph.simplify_ok_iff h positive]
    constructor
    · rintro sparse part ⟨x, hx⟩ inside
      by_contra full
      refine sparse part ⟨inside, fun y hy => ?_⟩ x hx
      exact Nat.le_of_not_lt fun few => full ⟨y, hy, few⟩
    · intro sparse part dense x hx
      obtain ⟨y, hy, few⟩ := sparse part ⟨x, hx⟩ dense.inside
      exact absurd (dense.many y hy) (by omega)
  · exact fun order ok => (InterferenceGraph.removal_of_simplify ok).nodup
  · exact fun required => InterferenceGraph.core_of_simplify h positive
  · exact fun positive ok =>
      ⟨fun budget' le => Method.exists_allocate_of_le positive le ok, method.exists_allocate_zero⟩
  · exact fun error => Method.exists_allocate_required

/-- A square, a node that is joined to one of its corners, and one that is joined to none. -/
def squareWithTail : InterferenceGraph :=
  ((((({} : InterferenceGraph).addEdge "a" "b").addEdge "b" "c").addEdge "c" "d").addEdge "d" "a")
    |>.addEdge "a" "tail" |>.addNode "free"

theorem undirected_squareWithTail : squareWithTail.Undirected :=
  InterferenceGraph.undirected_empty.addEdge.addEdge.addEdge.addEdge.addEdge.addNode

/-- Two registers are not enough for the square, whose corners have two neighbours in it; three
are, though one corner has three neighbours in the graph. -/
theorem fits_iff_sparse_squareWithTail :
    (∃ core, squareWithTail.Core 2 core ∧ squareWithTail.Demands core 3) ∧
    (∀ part : NameSet, (∃ x, x ∈ part) → (∀ x ∈ part, squareWithTail.contains x = true) →
      ∃ x ∈ part, squareWithTail.degreeIn part x < 3) ∧
    (["b", "a", "c", "d", "free", "tail"].Nodup ∧
      ∀ x, x ∈ ["b", "a", "c", "d", "free", "tail"] ↔ squareWithTail.contains x = true) ∧
    Method.overlapping.allocate 1 = .error ⟨"f", 1, 2⟩ ∧
    (∃ result, Method.overlapping.allocate 2 = .ok result) ∧
    ∃ result, Method.overlapping.allocate 7 = .ok result := by
  have stuck : squareWithTail.simplify 2 = .error 3 := by decide +kernel
  have order : squareWithTail.simplify 3 = .ok ["b", "a", "c", "d", "free", "tail"] := by decide +kernel
  have few : Method.overlapping.allocate 1 = .error ⟨"f", 1, 2⟩ := by decide +kernel
  have enough := (fits_iff_sparse.2 Method.overlapping 1).2 _ few
  refine ⟨?_, ?_, ?_, few, enough, ?_⟩
  · exact (fits_iff_sparse.1 _ 2 undirected_squareWithTail (by decide)).2.2 3 stuck
  · exact (fits_iff_sparse.1 _ 3 undirected_squareWithTail (by decide)).1.mp ⟨_, order⟩
  · exact (fits_iff_sparse.1 _ 3 undirected_squareWithTail (by decide)).2.1 _ order
  · exact ((fits_iff_sparse.2 Method.overlapping 2).1 (by decide) enough).1 7 (by decide)

/-- With a parameter in the last register the locals go on with the first ones, and need two as
before. -/
example : let method := { Method.overlapping with
      vars := Method.overlapping.vars.insert "p" ⟨.parameter, 2147483647, .int⟩ }
    method.allocate 1 = .error ⟨"f", 1, 2⟩ ∧
      (method.allocate 2).toOption.map (·.2.assignments.get? "b") = some (some (-2147483648)) := by
  decide +kernel

end ClassCompiler
