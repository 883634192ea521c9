import ClassCompiler.Proofs.Registers.Core

/-! What a method that does not fit needs. As many registers as the nodes of the core have
neighbours in it are too few, and one more than the greatest such number is enough. Between the
two the number that is reported decides nothing, unless all nodes of the core have equally
many neighbours. -/

namespace ClassCompiler
set_option autoImplicit false

namespace InterferenceGraph
variable {graph : InterferenceGraph} {part : NameSet} {limit : Nat}

theorem exists_simplify_error_iff (h : graph.Undirected) (positive : 0 < limit) :
    (∃ required, graph.simplify limit = .error required) ↔
      ∃ part, Dense graph limit part ∧ ∃ x, x ∈ part := by
  constructor
  · rintro ⟨required, stuck⟩
    obtain ⟨core, largest, ⟨x, hx, -⟩, -⟩ := core_of_simplify h positive stuck
    exact ⟨core, largest.toDense, x, hx⟩
  · rintro ⟨part, dense, x, hx⟩
    cases result : graph.simplify limit with
    | error required => exact ⟨required, rfl⟩
    | ok order => exact absurd hx ((simplify_ok_iff h positive).mp ⟨order, result⟩ part dense x)

end InterferenceGraph

namespace Method
variable {method : Method} {budget : Int} {error : AllocationError}

/-- Allocation fails exactly when a part of the interference graph is dense. -/
theorem exists_allocate_error_iff (positive : 0 < budget) :
    (∃ error, method.allocate budget = .error error) ↔
      ∃ part, method.interference.Dense budget.toNat part ∧ ∃ x, x ∈ part := by
  rw [← InterferenceGraph.exists_simplify_error_iff undirected_interference (by omega)]
  constructor
  · rintro ⟨error, failed⟩
    exact ⟨_, simplify_of_allocate (by omega) failed⟩
  · rintro ⟨required, stuck⟩
    cases result : method.allocate budget with
    | error error => exact ⟨error, rfl⟩
    | ok allocated =>
      obtain ⟨order, ok⟩ := (exists_allocate_iff (Int.le_of_lt positive)).mp ⟨allocated, result⟩
      rw [stuck] at ok
      cases ok

/-- After a misfit, budgets up to the number of neighbours that every node of the core has in it
do not fit either; the reported number is one more than the greatest of these numbers of
neighbours, and fits. So it is the least number that fits if all nodes of the core have equally
many neighbours in it. -/
theorem allocate_requirement (failed : method.allocate budget = .error error) :
    ∃ core, method.interference.Core budget.toNat core ∧
      method.interference.Demands core error.required ∧
      (∀ budget' : Int, 0 < budget' →
        (∀ x ∈ core, budget' ≤ method.interference.degreeIn core x) →
        ∃ error', method.allocate budget' = .error error') ∧
      (∃ result, method.allocate error.required = .ok result) ∧
      ((∀ x ∈ core, ∀ y ∈ core,
          method.interference.degreeIn core x = method.interference.degreeIn core y) →
        ∀ budget' : Int, 0 < budget' → budget' < error.required →
          ∃ error', method.allocate budget' = .error error') := by
  have positive := pos_of_allocate failed
  have stuck := simplify_of_allocate (by omega) failed
  obtain ⟨core, largest, demands⟩ :=
    InterferenceGraph.core_of_simplify undirected_interference (by omega) stuck
  obtain ⟨⟨x, hx, exact⟩, -⟩ := id demands
  have few : ∀ budget' : Int, 0 < budget' →
      (∀ y ∈ core, budget' ≤ method.interference.degreeIn core y) →
      ∃ error', method.allocate budget' = .error error' := by
    intro budget' positive' below
    refine (exists_allocate_error_iff positive').mpr ⟨core, ⟨largest.inside, ?_⟩, x, hx⟩
    intro y hy
    have := below y hy
    omega
  refine ⟨core, largest, demands, few, exists_allocate_required failed, ?_⟩
  intro regular budget' positive' less
  refine few budget' positive' fun y hy => ?_
  rw [regular y hy x hx]
  omega

/-- One variable is in use while three others are, one after another. -/
def spokes : Method where
  name := "f"
  isPublic := true
  isStatic := false
  params := []
  returnType := .int
  code :=
    [.assign (.operand "c" .int) (.single (.literal "0" .int)),
     .assign (.operand "x" .int) (.single (.literal "1" .int)),
     .assign (.operand "y" .int) (.single (.literal "2" .int)),
     .assign (.operand "z" .int) (.single (.literal "3" .int)),
     .ret (some (.operand "c" .int))]
  vars := .ofList
    [("c", ⟨.localVar, 1, .int⟩), ("x", ⟨.localVar, 2, .int⟩), ("y", ⟨.localVar, 3, .int⟩),
     ("z", ⟨.localVar, 4, .int⟩)]

/-- Four registers are reported to be needed at least, and two are enough. -/
theorem allocate_requirement_spokes :
    spokes.allocate 1 = .error ⟨"f", 1, 4⟩ ∧ (∃ result, spokes.allocate 2 = .ok result) ∧
    ∃ result, spokes.allocate 4 = .ok result := by
  have failed : spokes.allocate 1 = .error ⟨"f", 1, 4⟩ := by decide +kernel
  obtain ⟨-, -, -, -, enough, -⟩ := allocate_requirement failed
  exact ⟨failed, ⟨_, rfl⟩, enough⟩

end Method
end ClassCompiler
