import ClassCompiler.Compilation
import ClassCompiler.Proofs.Registers.Colouring

/-! What the allocation of registers leaves as it is. It changes the registers of the variables
that it may move and nothing else, and it reads nothing that it changes. So a second allocation
changes nothing, and compilations with different budgets differ in registers only. -/

namespace ClassCompiler
set_option autoImplicit false

namespace Method
variable {method other allocated : Method} {budget : Int} {assignments : NameMap Int}

/-- A method without the registers that the allocator may give: they are zero. -/
def cleared (method : Method) : Method :=
  { method with
    vars := method.vars.mapValues fun name descriptor =>
      if isAllocatable name descriptor then { descriptor with register := 0 } else descriptor }

/-- What the allocator reads of a variable: its scope and, if it may not be moved, its
register. -/
def fixedPart (name : String) (descriptor : Descriptor) : VarScope × Option Int :=
  (descriptor.scope, if isAllocatable name descriptor then none else some descriptor.register)

/-- Two methods are one for the allocator: they have the same code, and their variables have
the same names, scopes and, if they may not be moved, registers. -/
structure Alike (method other : Method) : Prop where
  code : other.code = method.code
  vars : other.vars.mapValues fixedPart = method.vars.mapValues fixedPart

/-- The registers that are given to the variables of a method, or the number of those that it
would need. -/
def registersGiven (method : Method) (budget : Int) : Except Nat (NameMap Int) :=
  match method.allocate budget with
  | .ok (_, allocation) => .ok allocation.assignments
  | .error error => .error error.required

theorem fixedPart_cleared (method : Method) (name : String) :
    (method.cleared.vars.get? name).map (fixedPart name) =
      (method.vars.get? name).map (fixedPart name) := by
  simp only [cleared, NameMap.get?_mapValues, Option.map_map]
  refine Option.map_congr fun d _ => ?_
  simp only [Function.comp_apply]
  split
  · rename_i moved
    have moved' : isAllocatable name { d with register := 0 } = true := moved
    simp only [fixedPart, moved, moved', reduceIte]
  · rfl

theorem alike_of_cleared_eq (h : other.cleared = method.cleared) : method.Alike other := by
  have code : other.cleared.code = method.cleared.code := by rw [h]
  refine ⟨code, NameMap.ext_get? fun name => ?_⟩
  rw [NameMap.get?_mapValues, NameMap.get?_mapValues]
  calc (other.vars.get? name).map (fixedPart name)
      = (other.cleared.vars.get? name).map (fixedPart name) := (fixedPart_cleared other name).symm
    _ = (method.cleared.vars.get? name).map (fixedPart name) := by rw [h]
    _ = (method.vars.get? name).map (fixedPart name) := fixedPart_cleared method name

theorem Alike.allocatable_eq (h : method.Alike other) : other.allocatable = method.allocatable := by
  have read : ∀ m : Method, m.allocatable =
      (((m.vars.mapValues fixedPart).entries.filter fun entry => entry.2.2.isNone).map (·.1)) := by
    intro m
    simp only [allocatable, NameMap.keys, NameMap.filter, NameMap.mapValues, List.filter_map,
      List.map_map]
    congr 1
    refine List.filter_congr fun entry _ => ?_
    simp only [Function.comp_apply, fixedPart]
    cases isAllocatable entry.1 entry.2 <;> rfl
  rw [read, read, h.vars]

theorem Alike.reserved_eq (h : method.Alike other) : other.reserved = method.reserved := by
  have read : ∀ m : Method, m.reserved =
      (m.vars.mapValues fixedPart).entries.filterMap fun entry => entry.2.2.filter (0 ≤ ·) := by
    intro m
    simp only [reserved, NameMap.values, NameMap.filter, NameMap.mapValues, List.filterMap_map]
    induction m.vars.entries with
    | nil => rfl
    | cons entry rest ih =>
      rw [List.filterMap_cons, ← ih]
      cases moved : isAllocatable entry.1 entry.2 <;>
        by_cases nonneg : 0 ≤ entry.2.register <;>
        simp [fixedPart, moved, nonneg, Option.filter]
  rw [read, read, h.vars]

/-- Methods that are one for the allocator are given the same registers. -/
theorem Alike.registersGiven_eq (h : method.Alike other) (budget : Int) :
    other.registersGiven budget = method.registersGiven budget := by
  have graph : other.interference = method.interference := by
    simp only [interference, h.allocatable_eq, Liveness.analyze, h.code]
  have base : other.base = method.base := by simp only [base, h.reserved_eq]
  unfold registersGiven
  by_cases enabled : 0 ≤ budget
  · rw [allocate_eq enabled, allocate_eq enabled, graph, base, h.reserved_eq]
    cases method.interference.simplify budget.toNat <;> rfl
  · simp [allocate, Int.not_le.mp enabled]

theorem withRegisters_empty (method : Method) : method.withRegisters {} = method := by
  have same : method.vars.mapValues
      (fun name d => { d with register := (({} : NameMap Int).get? name).getD d.register }) =
        method.vars := by
    refine NameMap.ext_get? fun name => ?_
    rw [NameMap.get?_mapValues]
    exact Option.map_id'
  rw [withRegisters, same]

/-- What a successful allocation does: it writes the registers that it gives into the variables
that it may move. -/
theorem allocate_eq_ok {allocation : Allocation}
    (h : method.allocate budget = .ok (allocated, allocation)) :
    allocated = method.withRegisters allocation.assignments ∧ allocation.method = method.name ∧
      ∀ name r, allocation.assignments.get? name = some r → name ∈ method.allocatable := by
  by_cases enabled : 0 ≤ budget
  · rw [allocate_eq enabled] at h
    cases hsimplify : method.interference.simplify budget.toNat with
    | error required => simp [hsimplify] at h
    | ok order =>
      rw [hsimplify] at h
      cases h
      exact ⟨rfl, rfl, fun name r hr => ((colours_of_simplify hsimplify).1 name).mp ⟨r, hr⟩⟩
  · rw [allocate, if_pos (Int.not_le.mp enabled)] at h
    cases h
    exact ⟨(withRegisters_empty method).symm, rfl, fun _ _ hr => by cases hr⟩

theorem cleared_withRegisters
    (only : ∀ name r, assignments.get? name = some r → name ∈ method.allocatable) :
    (method.withRegisters assignments).cleared = method.cleared := by
  simp only [cleared, withRegisters, Method.mk.injEq, true_and]
  refine NameMap.ext_get? fun name => ?_
  simp only [NameMap.get?_mapValues, Option.map_map]
  refine Option.map_congr fun d hd => ?_
  simp only [Function.comp_apply]
  cases moved : isAllocatable name d with
  | true =>
    have moved' : isAllocatable name
        { d with register := (assignments.get? name).getD d.register } = true := moved
    rw [if_pos moved', if_pos rfl]
  | false =>
    have absent : assignments.get? name = none := by
      refine Option.eq_none_iff_forall_ne_some.mpr fun r hr => ?_
      obtain ⟨d', hd', moved'⟩ := mem_allocatable_iff.mp (only name r hr)
      rw [Option.some.inj (hd.symm.trans hd'), moved'] at moved
      cases moved
    simp [absent, moved]

theorem withRegisters_withRegisters (method : Method) (assignments : NameMap Int) :
    (method.withRegisters assignments).withRegisters assignments =
      method.withRegisters assignments := by
  simp only [withRegisters, Method.mk.injEq, true_and]
  refine NameMap.ext_get? fun name => ?_
  simp only [NameMap.get?_mapValues, Option.map_map]
  refine Option.map_congr fun d _ => ?_
  cases assignments.get? name <;> rfl

/-- A method whose registers have been allocated is given the same ones again. -/
theorem allocate_allocated {allocation : Allocation}
    (h : method.allocate budget = .ok (allocated, allocation)) :
    allocated.allocate budget = .ok (allocated, allocation) := by
  obtain ⟨rfl, named, only⟩ := allocate_eq_ok h
  have alike := alike_of_cleared_eq (cleared_withRegisters only)
  have given := alike.registersGiven_eq budget
  simp only [registersGiven, h] at given
  cases again : (method.withRegisters allocation.assignments).allocate budget with
  | error error => simp [again] at given
  | ok result =>
    obtain ⟨final, allocation'⟩ := result
    simp only [again, Except.ok.injEq] at given
    obtain ⟨rfl, named', -⟩ := allocate_eq_ok again
    rw [given, withRegisters_withRegisters]
    cases allocation
    cases allocation'
    simp only at given named named'
    rw [given, named, named']
    rfl

/-- What becomes of a method and what is reported of it: one that is refused stays as it is and
is reported once; in any other only variables that the allocator may move are given registers. -/
inductive AllocatesTo (method : Method) (budget : Int) : Method × List Report → Prop
  | refused {error : AllocationError} (result : method.allocate budget = .error error) :
      AllocatesTo method budget (method, [.unlocated .optimization error.message])
  | given {allocated : Method} {allocation : Allocation}
      (result : method.allocate budget = .ok (allocated, allocation))
      (only : ∀ name r, allocation.assignments.get? name = some r → name ∈ method.allocatable) :
      AllocatesTo method budget (method.withRegisters allocation.assignments, [])

theorem allocatesTo_allocateOrReport (method : Method) (budget : Int) :
    method.AllocatesTo budget (method.allocateOrReport budget) := by
  unfold allocateOrReport
  split
  · rename_i result
    obtain ⟨rfl, -, only⟩ := allocate_eq_ok result
    exact .given result only
  · rename_i result
    exact .refused result

theorem AllocatesTo.cleared_eq {result : Method × List Report}
    (h : method.AllocatesTo budget result) : result.1.cleared = method.cleared := by
  cases h with
  | refused => rfl
  | given _ only => exact cleared_withRegisters only

theorem AllocatesTo.stage_eq {result : Method × List Report}
    (h : method.AllocatesTo budget result) : ∀ r ∈ result.2, r.stage = .optimization := by
  cases h with
  | refused => exact fun r hr => by rw [List.mem_singleton.mp hr]; rfl
  | given => exact fun r hr => by cases hr

/-- A method that has been through the allocation goes through it again unchanged, with the same
report. -/
theorem allocateOrReport_allocateOrReport (method : Method) (budget : Int) :
    (method.allocateOrReport budget).1.allocateOrReport budget =
      method.allocateOrReport budget := by
  cases h : method.allocate budget with
  | ok result =>
    obtain ⟨allocated, allocation⟩ := result
    have first : method.allocateOrReport budget = (allocated, []) := by
      simp only [allocateOrReport, h]
    rw [first]
    simp only [allocateOrReport, allocate_allocated h]
  | error error =>
    have first : (method.allocateOrReport budget).1 = method := by
      simp only [allocateOrReport, h]
    rw [first]

end Method

namespace ClassUnit

/-- A class without the registers that the allocator may give. -/
def cleared (unit : ClassUnit) : ClassUnit :=
  { unit with methods := unit.methods.map Method.cleared }

/-- The text of a class shows no registers. -/
theorem text_cleared (unit : ClassUnit) : unit.cleared.text = unit.text := by
  have lines : (unit.methods.map Method.cleared).flatMap Method.lines =
      unit.methods.flatMap Method.lines := by
    rw [List.flatMap_map]
    rfl
  simp only [text, ClassUnit.lines, cleared, lines]
  rfl

theorem cleared_allocate (unit : ClassUnit) (budget : Int) :
    (unit.allocate budget).1.cleared = unit.cleared := by
  simp only [cleared, allocate, List.map_map, ClassUnit.mk.injEq, true_and]
  exact List.map_congr_left fun method _ =>
    (method.allocatesTo_allocateOrReport budget).cleared_eq

theorem stage_of_mem_allocate {unit : ClassUnit} {budget : Int} {report : Report}
    (h : report ∈ (unit.allocate budget).2) : report.stage = .optimization := by
  simp only [allocate, List.flatMap_map, List.mem_flatMap] at h
  obtain ⟨method, -, hr⟩ := h
  exact (method.allocatesTo_allocateOrReport budget).stage_eq report hr

theorem allocate_allocate (unit : ClassUnit) (budget : Int) :
    (unit.allocate budget).1.allocate budget = unit.allocate budget := by
  have same : ∀ methods : List Method,
      ((methods.map fun m => m.allocateOrReport budget).map (·.1)).map
        (fun m => m.allocateOrReport budget) = methods.map fun m => m.allocateOrReport budget := by
    intro methods
    rw [List.map_map, List.map_map]
    exact List.map_congr_left fun method _ => method.allocateOrReport_allocateOrReport budget
  simp only [allocate, same]

end ClassUnit

/-- Two compilations differ in registers, and in what is reported of them, at most. -/
structure Compilation.SameBesideRegisters (one other : Compilation) : Prop where
  tree : other.tree = one.tree
  table : other.table = one.table
  findings : other.reports.filter (·.stage = .semantic) = one.reports.filter (·.stage = .semantic)
  code : other.codeText? = one.codeText?
  unit : other.unit.map ClassUnit.cleared = one.unit.map ClassUnit.cleared

/-- Two compilations end with the same error, or both yield a class and differ in registers. -/
inductive SameBesideRegisters :
    Except CompileError Compilation → Except CompileError Compilation → Prop
  | failed (error : CompileError) : SameBesideRegisters (.error error) (.error error)
  | done {one other : Compilation} (same : one.SameBesideRegisters other) :
      SameBesideRegisters (.ok one) (.ok other)

theorem codeText?_eq_of_cleared {one other : Compilation}
    (h : other.unit.map ClassUnit.cleared = one.unit.map ClassUnit.cleared) :
    other.codeText? = one.codeText? := by
  have read : ∀ c : Compilation, c.codeText? = (c.unit.map ClassUnit.cleared).map ClassUnit.text := by
    intro c
    rw [Compilation.codeText?, Option.map_map]
    exact Option.map_congr fun unit _ => (ClassUnit.text_cleared unit).symm
  rw [read, read, h]

theorem findings_append_allocate (unit : ClassUnit) (reports : List Report) (budget : Int) :
    (reports ++ (unit.allocate budget).2).filter (·.stage = .semantic) =
      reports.filter (·.stage = .semantic) := by
  have none : (unit.allocate budget).2.filter (·.stage = .semantic) = [] := by
    refine List.filter_eq_nil_iff.mpr fun r hr => ?_
    rw [ClassUnit.stage_of_mem_allocate hr]
    decide
  rw [List.filter_append, none, List.append_nil]

theorem compileChecked_sameBesideRegisters (tree : Tree) (table : SymbolTable)
    (reports : List Report) (options : Options) (registers : Int) (debug : Bool) :
    SameBesideRegisters (compileChecked tree table reports options)
      (compileChecked tree table reports { options with registers, debug }) := by
  have simplify : optimize table { options with registers, debug } = optimize table options := rfl
  unfold compileChecked
  rw [simplify]
  rcases (optimize table options).run.run tree with ⟨fault | summary, rewritten⟩
  · exact .failed _
  · dsimp only
    cases lowerClass rewritten table with
    | error error => exact .failed _
    | ok lowered =>
      have cleared : (lowered.allocate registers).1.cleared =
          (lowered.allocate options.registers).1.cleared :=
        (lowered.cleared_allocate _).trans (lowered.cleared_allocate _).symm
      exact .done ⟨rfl, rfl,
        (findings_append_allocate ..).trans (findings_append_allocate ..).symm,
        codeText?_eq_of_cleared (congrArg some cleared), congrArg some cleared⟩

theorem compile_sameBesideRegisters (tree : Tree) (options : Options) (registers : Int)
    (debug : Bool) :
    SameBesideRegisters (compile tree options)
      (compile tree { options with registers, debug }) := by
  unfold compile
  cases check tree with
  | error fault => exact .failed _
  | ok result =>
    obtain ⟨table, reports⟩ := result
    cases erroneous : hasErrors reports with
    | true =>
      simp only [Except.mapError, bind, Except.bind, erroneous, reduceIte]
      exact .done ⟨rfl, rfl, rfl, rfl, rfl⟩
    | false =>
      simp only [Except.mapError, bind, Except.bind, erroneous, Bool.false_eq_true, reduceIte]
      exact compileChecked_sameBesideRegisters tree table reports options registers debug

/-- The allocation changes the registers of variables that it may move, and nothing else. A
method that is refused stays as it is and is reported once; which registers are given depends on
nothing that the allocation changes, so a second one changes nothing. A compilation with another
budget differs in registers only. -/
theorem allocate_changes_registers_only (unit : ClassUnit) (budget : Int) :
    (unit.allocate budget).1.cleared = unit.cleared ∧
    (∃ results, List.Forall₂ (Method.AllocatesTo · budget) unit.methods results ∧
      (unit.allocate budget).1.methods = results.map (·.1) ∧
      (unit.allocate budget).2 = results.flatMap (·.2)) ∧
    (∀ method other : Method, method.Alike other →
      other.registersGiven budget = method.registersGiven budget) ∧
    (unit.allocate budget).1.allocate budget = unit.allocate budget ∧
    ∀ tree options registers debug, SameBesideRegisters (compile tree options)
      (compile tree { options with registers, debug }) := by
  refine ⟨unit.cleared_allocate budget, ⟨unit.methods.map (·.allocateOrReport budget), ?_, rfl, rfl⟩,
    fun _ _ alike => alike.registersGiven_eq budget, unit.allocate_allocate budget,
    compile_sameBesideRegisters⟩
  rw [List.forall₂_map_right_iff]
  exact List.forall₂_same.mpr fun method _ => method.allocatesTo_allocateOrReport budget

/-- Stale registers of locals do not count: whatever `a` holds, the four variables are given the
same two registers. -/
theorem allocate_changes_registers_only_overlapping :
    Method.overlapping.Alike (Method.overlapping.withRegisters (.ofList [("a", 7)])) ∧
    (Method.overlapping.withRegisters (.ofList [("a", 7)])).registersGiven 2 =
      .ok (.ofList [("a", 3), ("b", 2), ("t0", 2), ("t1", 2)]) := by
  have alike : Method.overlapping.Alike
      (Method.overlapping.withRegisters (.ofList [("a", 7)])) := by
    refine Method.alike_of_cleared_eq (Method.cleared_withRegisters fun name r hr => ?_)
    obtain ⟨rfl, -⟩ := Prod.mk.inj (List.mem_singleton.mp (NameMap.get?_eq_some_iff.mp hr))
    decide +kernel
  have given := (allocate_changes_registers_only ⟨"A", none, [], [], []⟩ 2).2.2.1 _ _ alike
  refine ⟨alike, given.trans ?_⟩
  decide +kernel

end ClassCompiler
