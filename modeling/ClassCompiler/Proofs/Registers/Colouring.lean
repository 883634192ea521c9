import ClassCompiler.Proofs.Registers.Interference
import ClassCompiler.Proofs.Registers.Search
import ClassCompiler.Proofs.Runs

/-! Register allocation is a colouring: variables that are joined in the interference graph get
different registers, none of which is reserved. A variable is given one of the first registers
above the reserved ones, as many as it has neighbours that were given one before, and one
more. -/

namespace ClassCompiler
set_option autoImplicit false

namespace InterferenceGraph
variable {graph : InterferenceGraph} {x y name : String} {limit : Nat}

theorem contains_remove :
    (graph.remove name).contains x = true ↔ graph.contains x = true ∧ x ≠ name := by
  simp only [contains_iff, remove, NameMap.get?_mapValues, NameMap.get?_erase]
  by_cases h : x = name <;> simp [h]

theorem mem_neighbours_remove : y ∈ (graph.remove name).neighbours x ↔
    y ∈ graph.neighbours x ∧ x ≠ name ∧ y ≠ name := by
  simp only [neighbours, remove, NameMap.get?_mapValues, NameMap.get?_erase]
  by_cases h : x = name
  · simp only [h, if_pos, ne_eq, not_true, false_and, and_false, iff_false]
    exact NameSet.not_mem_empty y
  · cases graph.adjacency.get? x with
    | none =>
      simp only [h, if_neg, not_false_iff, Option.map_none, Option.getD_none]
      exact iff_of_false (NameSet.not_mem_empty y) fun hy => NameSet.not_mem_empty y hy.1
    | some set => simp [h]

theorem isEmpty_iff : graph.isEmpty = true ↔ ∀ x, graph.contains x = false := by
  simp only [isEmpty, NameMap.isEmpty, List.isEmpty_iff]
  constructor
  · intro h x
    simp [contains, NameMap.contains, h]
  · intro h
    refine List.eq_nil_iff_forall_not_mem.mpr fun entry hentry => ?_
    have present : graph.contains entry.1 = true :=
      contains_iff.mpr ⟨entry.2, NameMap.get?_eq_some_iff.mpr hentry⟩
    rw [h] at present
    cases present

theorem size_remove (h : graph.contains name = true) :
    (graph.remove name).size < graph.size := by
  obtain ⟨set, hset⟩ := contains_iff.mp h
  simp only [size, NameMap.size, remove, NameMap.mapValues, List.length_map, NameMap.erase,
    NameMap.filter]
  refine List.length_filter_lt_length_iff_exists.mpr ⟨(name, set), ?_, by simp⟩
  exact NameMap.get?_eq_some_iff.mp hset

/-- An order in which the nodes of a graph can be removed, each of them with fewer neighbours
than a limit when its turn comes. -/
inductive Removal (limit : Nat) : InterferenceGraph → List String → Prop where
  | done {graph : InterferenceGraph} (empty : ∀ x, graph.contains x = false) : Removal limit graph []
  | next {graph : InterferenceGraph} {name : String} {rest : List String}
      (present : graph.contains name = true) (few : limit = 0 ∨ graph.degree name < limit)
      (others : Removal limit (graph.remove name) rest) : Removal limit graph (name :: rest)

theorem removal_of_simplifyFor {count : Nat} {order : List String} (enough : graph.size ≤ count)
    (h : simplifyFor count graph limit = .ok order) : Removal limit graph order := by
  induction count generalizing graph order with
  | zero =>
    cases h
    refine .done (isEmpty_iff.mp ?_)
    simpa [size, NameMap.size, isEmpty, NameMap.isEmpty] using enough
  | succ count ih =>
    simp only [simplifyFor] at h
    split at h
    · rename_i empty
      cases h
      exact .done (isEmpty_iff.mp empty)
    · split at h
      · rename_i name found
        obtain ⟨rest, hrest, h⟩ := except_bind_eq_ok.mp h
        cases h
        have present := mem_nodes_iff.mp (List.mem_of_find?_eq_some found)
        refine .next present ?_ (ih ?_ hrest)
        · simpa [candidate?] using List.find?_some found
        · have := size_remove present
          omega
      · cases h

theorem removal_of_simplify {order : List String} (h : graph.simplify limit = .ok order) :
    Removal limit graph order := removal_of_simplifyFor (Nat.le_refl _) h

end InterferenceGraph

namespace Registers
variable {base : Int} {graph work : InterferenceGraph} {order : List String} {reserved : List Int}
  {limit : Nat} {colours : NameMap Int} {x y name : String} {r r' : Int}

theorem select_cons : select graph (name :: order) base reserved =
    assign graph base reserved (select graph order base reserved) name := by
  simp [select, List.foldl_append]

/-- What a variable is given: the lowest register that none of its neighbours has. -/
theorem get?_assign (graph : InterferenceGraph) (base : Int) (reserved : List Int)
    (colours : NameMap Int) (name : String) : ∃ r passed, FoundAfter base reserved passed r ∧
    (∀ y, (assign graph base reserved colours name).get? y =
      if y = name then some r else colours.get? y) ∧
    passed ≤ ((graph.neighbours name).toList.filterMap colours.get?).length ∧
    ∀ y ∈ graph.neighbours name, colours.get? y ≠ some r := by
  obtain ⟨count, found, free, before⟩ := @firstFree_spec
    ((graph.neighbours name).toList.filterMap colours.get? ++ reserved) base 0 _ (Nat.le_refl _)
    fun _ h => absurd h (Nat.not_lt_zero _)
  refine ⟨tried base count, _, ⟨count, rfl, ?_, rfl⟩, fun y => ?_, length_unreserved_le before, ?_⟩
  · exact fun mem => free (List.mem_append_right _ mem)
  · rw [← found]
    exact NameMap.get?_insert _ _ _ _
  · exact fun y hy taken =>
      free (List.mem_append_left _ (List.mem_filterMap.mpr ⟨y, hy, taken⟩))

/-- What the registers given to the nodes of a graph are like: those of neighbours differ, and
before each one at most as many are passed as the node has neighbours. -/
structure Colours (graph : InterferenceGraph) (limit : Nat) (base : Int) (reserved : List Int)
    (colours : NameMap Int) : Prop where
  apart : ∀ {x y r r'}, y ∈ graph.neighbours x → colours.get? x = some r →
    colours.get? y = some r' → r ≠ r'
  found : ∀ {x r}, colours.get? x = some r → ∃ passed, FoundAfter base reserved passed r ∧
    passed ≤ graph.degree x ∧ (limit = 0 ∨ passed < limit)

/-- The neighbours of a node that are removed after it are fewer than the limit, so that it
finds a register below the limit. -/
theorem colours_select (symmetric : ∀ {x y}, y ∈ graph.neighbours x → x ∈ graph.neighbours y)
    (loopless : ∀ {x}, x ∉ graph.neighbours x)
    (part : ∀ {x y}, work.contains x = true → work.contains y = true →
      y ∈ graph.neighbours x → y ∈ work.neighbours x)
    (removal : InterferenceGraph.Removal limit work order) :
    (∀ x, (∃ r, (select graph order base reserved).get? x = some r) ↔ work.contains x = true) ∧
      Colours graph limit base reserved (select graph order base reserved) := by
  induction removal with
  | done empty =>
    have nothing : ∀ x, (select graph [] base reserved).get? x = none := fun x => rfl
    refine ⟨fun x => by simp [nothing, empty], ⟨?_, ?_⟩⟩
    all_goals simp [nothing]
  | @next work name rest present few others ih =>
    obtain ⟨domain, coloured⟩ := ih fun hx hy hxy => by
      rw [InterferenceGraph.contains_remove] at hx hy
      exact InterferenceGraph.mem_neighbours_remove.mpr ⟨part hx.1 hy.1 hxy, hx.2, hy.2⟩
    rw [select_cons]
    generalize select graph rest base reserved = colours at domain coloured
    -- The neighbours with a register are the neighbours of the node that are still there.
    have taken : ((graph.neighbours name).toList.filterMap colours.get?).length =
        ((graph.neighbours name).toList.filter fun y => (colours.get? y).isSome).length := by
      rw [List.length_filterMap_eq_countP, List.countP_eq_length_filter]
    have distinct : ((graph.neighbours name).toList.filter
        fun y => (colours.get? y).isSome).Nodup := (NameSet.nodup_toList _).filter _
    have left : ∀ y ∈ (graph.neighbours name).toList.filter fun y => (colours.get? y).isSome,
        y ∈ work.neighbours name := by
      intro y hy
      obtain ⟨hy, isSome⟩ := List.mem_filter.mp hy
      have there := (domain y).mp (Option.isSome_iff_exists.mp isSome)
      exact part present (InterferenceGraph.contains_remove.mp there).1 hy
    have byWork := NameSet.length_le_size distinct left
    have byGraph := NameSet.length_le_size distinct
      fun y hy => show y ∈ graph.neighbours name from (List.mem_filter.mp hy).1
    rw [← taken] at byWork byGraph
    obtain ⟨r, passed, found, hr, fewer, free⟩ := get?_assign graph base reserved colours name
    refine ⟨?_, ⟨?_, ?_⟩⟩
    · intro x
      rw [hr]
      by_cases same : x = name
      · simp [same, present]
      · simp [same, domain, InterferenceGraph.contains_remove]
    · intro x y s s' hxy hx hy
      rw [hr] at hx hy
      split at hx <;> split at hy
      · rename_i hx' hy'
        rw [hx', hy'] at hxy
        exact absurd hxy loopless
      · rename_i hx' _
        cases hx
        rintro rfl
        exact free y (hx' ▸ hxy) hy
      · rename_i _ hy'
        cases hy
        rintro rfl
        exact free x (hy' ▸ symmetric hxy) hx
      · exact coloured.apart hxy hx hy
    · intro x s hx
      rw [hr] at hx
      split at hx
      · rename_i hx'
        cases hx
        subst hx'
        unfold InterferenceGraph.degree at few ⊢
        exact ⟨passed, found, by omega, few.imp_right fun few => by omega⟩
      · exact coloured.found hx

end Registers

namespace InterferenceGraph

theorem degree_le_maxDegree {graph : InterferenceGraph} {x : String}
    (h : graph.contains x = true) : graph.degree x ≤ graph.maxDegree :=
  (foldl_max_spec _ 0).1.2 _ (List.mem_map_of_mem (mem_nodes_iff.mpr h))

end InterferenceGraph

namespace Method
variable {method allocated : Method} {budget : Int} {allocation : Allocation} {name : String}

def register? (method : Method) (name : String) : Option Int :=
  (method.vars.get? name).map Descriptor.register

/-- The variables that are written by an instruction or live after it. -/
def busyAt (method : Method) (index : Nat) : NameSet :=
  ((Liveness.analyze method).flow.defs.getD index {}).union
    ((Liveness.analyze method).liveOut.getD index {})

theorem mem_allocatable_iff : name ∈ method.allocatable ↔
    ∃ d, method.vars.get? name = some d ∧ isAllocatable name d = true := by
  simp only [allocatable, NameMap.mem_keys_iff, NameMap.get?_filter, Option.filter_eq_some_iff]

theorem mem_reserved_iff {register : Int} : register ∈ method.reserved ↔
    0 ≤ register ∧ ∃ name d, method.vars.get? name = some d ∧ isAllocatable name d = false ∧
      d.register = register := by
  simp only [reserved, List.mem_map, NameMap.values, NameMap.filter, List.mem_filter,
    Prod.exists, NameMap.get?_eq_some_iff]
  constructor
  · rintro ⟨_, ⟨name, d, ⟨hd, kept⟩, rfl⟩, rfl⟩
    simp only [Bool.and_eq_true, Bool.not_eq_true', decide_eq_true_eq] at kept
    exact ⟨kept.2, name, d, hd, kept.1, rfl⟩
  · rintro ⟨nonneg, name, d, hd, kept, rfl⟩
    exact ⟨d, ⟨name, d, ⟨hd, by simp [kept, nonneg]⟩, rfl⟩, rfl⟩

/-- The largest register of a method and the number of its variables add up to less than the largest
register number. No register counts for less than minus one, which fields have. -/
def Roomy (method : Method) : Prop :=
  ∀ register ∈ -1 :: method.vars.values.map Descriptor.register,
    register + method.vars.size < 2147483647

/-- The base follows the greatest reserved register, or is zero if there is none. -/
theorem base_eq (roomy : method.Roomy) :
    (method.reserved = [] ∧ method.base = 0 ∨ method.base - 1 ∈ method.reserved) ∧
      (∀ r ∈ method.reserved, r < method.base) ∧ 0 ≤ method.base ∧
        method.base + method.vars.size < 2147483648 := by
  unfold base
  cases greatest : method.reserved.max? with
  | none =>
    have none := List.max?_eq_none_iff.mp greatest
    have := roomy (-1) List.mem_cons_self
    refine ⟨.inl ⟨none, rfl⟩, fun r hr => ?_, Int.le_refl 0, by simp only [Option.elim_none]; omega⟩
    rw [none] at hr
    cases hr
  | some register =>
    obtain ⟨mem, above⟩ := List.max?_eq_some_iff.mp greatest
    obtain ⟨nonneg, name, d, hd, -, rfl⟩ := mem_reserved_iff.mp mem
    have room := roomy d.register (List.mem_cons_of_mem _ (List.mem_map_of_mem
      (List.mem_map_of_mem (NameMap.get?_eq_some_iff.mp hd))))
    rw [Option.elim_some, Registers.wrap_eq_self (by omega) (by omega)]
    refine ⟨.inr ?_, fun r hr => ?_, by omega, by omega⟩
    · rwa [Int.add_sub_cancel]
    · have := above r hr
      omega

theorem mem_busyAt_iff {index : Nat} {x : String} : x ∈ method.busyAt index ↔
    ∃ set, ((Liveness.analyze method).flow.defs.zip (Liveness.analyze method).liveOut)[index]? =
      some set ∧ x ∈ set.1.union set.2 := by
  have lengths : (Liveness.analyze method).flow.defs.length =
      (Liveness.analyze method).liveOut.length := by
    simp [Liveness.analyze, Flow.ofCode, Flow.length]
  simp only [List.getElem?_zip_eq_some, busyAt, List.getD_eq_getElem?_getD]
  constructor
  · intro h
    by_cases inside : index < (Liveness.analyze method).flow.defs.length
    · refine ⟨(_, _), ⟨List.getElem?_eq_getElem inside,
        List.getElem?_eq_getElem (lengths ▸ inside)⟩, ?_⟩
      simpa [List.getElem?_eq_getElem inside, List.getElem?_eq_getElem (lengths ▸ inside)] using h
    · rw [List.getElem?_eq_none (by omega), List.getElem?_eq_none (by omega)] at h
      simp only [Option.getD_none, NameSet.mem_union, or_self] at h
      exact absurd h (NameSet.not_mem_empty x)
  · rintro ⟨set, ⟨defs, liveOut⟩, h⟩
    rw [defs, liveOut]
    exact h

/-- Two variables of a method are joined exactly when both may be moved and both are written or
live together somewhere. -/
theorem mem_interference_iff {x y : String} : y ∈ method.interference.neighbours x ↔
    x ≠ y ∧ x ∈ method.allocatable ∧ y ∈ method.allocatable ∧
      ∃ index, x ∈ method.busyAt index ∧ y ∈ method.busyAt index := by
  rw [interference, InterferenceGraph.mem_neighbours_build]
  refine and_congr_right fun _ => and_congr_right fun _ => and_congr_right fun _ => ?_
  constructor
  · rintro ⟨set, hset, hx, hy⟩
    obtain ⟨index, hindex⟩ := List.mem_iff_getElem?.mp hset
    exact ⟨index, mem_busyAt_iff.mpr ⟨set, hindex, hx⟩, mem_busyAt_iff.mpr ⟨set, hindex, hy⟩⟩
  · rintro ⟨index, hx, hy⟩
    obtain ⟨set, hset, hx⟩ := mem_busyAt_iff.mp hx
    obtain ⟨set', hset', hy⟩ := mem_busyAt_iff.mp hy
    obtain rfl := Option.some.inj (hset.symm.trans hset')
    exact ⟨set, List.mem_of_getElem? hset, hx, hy⟩

/-- The registers that are selected for the variables of a method. -/
theorem colours_of_simplify {limit : Nat} {order : List String}
    (h : method.interference.simplify limit = .ok order) :
    (∀ x, (∃ r, (Registers.select method.interference order method.base
        method.reserved).get? x = some r) ↔ x ∈ method.allocatable) ∧
      Registers.Colours method.interference limit method.base method.reserved
        (Registers.select method.interference order method.base method.reserved) := by
  have symmetric : ∀ {x y}, y ∈ method.interference.neighbours x →
      x ∈ method.interference.neighbours y := by
    intro x y hxy
    obtain ⟨differs, hx, hy, index, hx', hy'⟩ := mem_interference_iff.mp hxy
    exact mem_interference_iff.mpr ⟨differs.symm, hy, hx, index, hy', hx'⟩
  have loopless : ∀ {x}, x ∉ method.interference.neighbours x := fun hxx =>
    (mem_interference_iff.mp hxx).1 rfl
  obtain ⟨domain, colours⟩ := Registers.colours_select symmetric loopless
    (fun _ _ hxy => hxy) (InterferenceGraph.removal_of_simplify h)
  exact ⟨fun x => (domain x).trans InterferenceGraph.contains_build, colours⟩

theorem registersUsed_le {graph : InterferenceGraph} {limit : Nat} {base : Int}
    {reserved : List Int} (limited : 0 < limit)
    (colours : Registers.Colours graph limit base reserved allocation.assignments) :
    allocation.registersUsed ≤ limit := by
  refine length_le_of_ranks (Registers.FoundAfter base reserved) (nodup_eraseDups _)
    (fun r hr => ?_) fun _ _ _ found found' => Registers.FoundAfter.unique found found'
  obtain ⟨⟨x, r⟩, hx, rfl⟩ := List.mem_map.mp (List.mem_eraseDups.mp hr)
  obtain ⟨passed, found, -, within⟩ := colours.found (NameMap.get?_eq_some_iff.mpr hx)
  exact ⟨passed, found, within.resolve_left (by omega)⟩

/-- The allocator fails when no order of removal is found, and for no other reason: its count
of the registers at the end is never too great. -/
theorem allocate_eq (enabled : 0 ≤ budget) : method.allocate budget =
    match method.interference.simplify budget.toNat with
    | .error required => .error ⟨method.name, budget.toNat, required⟩
    | .ok order =>
      let assignments := Registers.select method.interference order method.base method.reserved
      .ok (method.withRegisters assignments, ⟨method.name, assignments⟩) := by
  unfold allocate
  rw [if_neg (by omega)]
  simp only []
  cases hsimplify : method.interference.simplify budget.toNat with
  | error required => rfl
  | ok order =>
    obtain ⟨_, colours⟩ := colours_of_simplify hsimplify
    refine if_neg ?_
    simp only [gt_iff_lt, Bool.and_eq_true, decide_eq_true_eq, not_and, Nat.not_lt]
    intro limited
    exact registersUsed_le limited colours

theorem length_allocatable_add_reserved_le (method : Method) :
    method.allocatable.length + method.reserved.length ≤ method.vars.size := by
  have split := List.length_eq_length_filter_add (l := method.vars.entries) fun entry =>
    isAllocatable entry.1 entry.2
  have fewer : (method.vars.entries.filter fun entry =>
      !isAllocatable entry.1 entry.2 && decide (0 ≤ entry.2.register)).length ≤
        (method.vars.entries.filter fun entry => !isAllocatable entry.1 entry.2).length :=
    (List.monotone_filter_right _ fun _ kept => (Bool.and_eq_true_iff.mp kept).1).length_le
  simp only [allocatable, reserved, NameMap.size, NameMap.keys, NameMap.values, NameMap.filter,
    List.length_map]
  omega

theorem degree_add_reserved_lt (ha : name ∈ method.allocatable) :
    method.interference.degree name + method.reserved.length < method.vars.size := by
  have loopless : name ∉ (method.interference.neighbours name).toList := fun h =>
    (mem_interference_iff.mp h).1 rfl
  have distinct := List.nodup_cons.mpr ⟨loopless, NameSet.nodup_toList _⟩
  have inside : name :: (method.interference.neighbours name).toList ⊆ method.allocatable :=
    List.cons_subset.mpr ⟨ha, fun y hy => (mem_interference_iff.mp hy).2.2.1⟩
  have few := distinct.length_le_of_subset inside
  have := method.length_allocatable_add_reserved_le
  unfold InterferenceGraph.degree NameSet.size
  rw [List.length_cons] at few
  omega

/-- A method after its registers have been allocated: variables that are in use together have
different registers, and none has a reserved one. Where register numbers have room, they are the
first ones above those that are reserved. -/
structure Coloured (method : Method) (budget : Int) (allocated : Method)
    (allocation : Allocation) : Prop where
  code : allocated.code = method.code
  apart : ∀ {a b index}, a ≠ b → a ∈ method.allocatable → b ∈ method.allocatable →
    a ∈ method.busyAt index → b ∈ method.busyAt index →
    allocated.register? a ≠ allocated.register? b
  unreserved : ∀ {a name d}, a ∈ method.allocatable → method.vars.get? name = some d →
    isAllocatable name d = false → 0 ≤ d.register → allocated.register? a ≠ some d.register
  kept : ∀ {name d}, method.vars.get? name = some d → isAllocatable name d = false →
    allocated.register? name = some d.register
  absent : ∀ {name}, method.vars.get? name = none → allocated.register? name = none
  assigned : ∀ {a r}, allocation.assignments.get? a = some r ↔
    a ∈ method.allocatable ∧ allocated.register? a = some r
  total : ∀ {a}, a ∈ method.allocatable → ∃ r, allocated.register? a = some r
  few : 0 < budget → allocation.registersUsed ≤ budget
  word : ∀ {a r}, method.vars.size ≤ 4294967296 → a ∈ method.allocatable →
    allocated.register? a = some r → -2147483648 ≤ r ∧ r < 2147483648
  bounded : ∀ {a r}, method.Roomy → a ∈ method.allocatable → allocated.register? a = some r →
    method.base ≤ r ∧ r ≤ method.base + method.interference.maxDegree
  within : ∀ {a r}, method.Roomy → 0 < budget → a ∈ method.allocatable →
    allocated.register? a = some r → r < method.base + budget

theorem register?_withRegisters {assignments : NameMap Int} {a : String} :
    (method.withRegisters assignments).register? a =
      (method.vars.get? a).map fun d => (assignments.get? a).getD d.register := by
  simp only [register?, withRegisters, NameMap.get?_mapValues, Option.map_map]
  rfl

theorem coloured_of_simplify {order : List String}
    (h : method.interference.simplify budget.toNat = .ok order) :
    method.Coloured budget
      (method.withRegisters
        (Registers.select method.interference order method.base method.reserved))
      ⟨method.name, Registers.select method.interference order method.base method.reserved⟩ := by
  obtain ⟨domain, colours⟩ := colours_of_simplify h
  generalize Registers.select method.interference order method.base method.reserved = assignments
    at domain colours
  -- Only the variables that may be moved are assigned a register, and all others keep theirs.
  have given : ∀ {a}, a ∈ method.allocatable →
      (method.withRegisters assignments).register? a = assignments.get? a := by
    intro a ha
    obtain ⟨d, hd, _⟩ := mem_allocatable_iff.mp ha
    obtain ⟨r, hr⟩ := (domain a).mpr ha
    rw [register?_withRegisters, hd, hr]
    rfl
  have kept : ∀ {name d}, method.vars.get? name = some d → isAllocatable name d = false →
      (method.withRegisters assignments).register? name = some d.register := by
    intro name d hd fixed
    have absent : assignments.get? name = none := by
      refine Option.eq_none_iff_forall_ne_some.mpr fun r hr => ?_
      obtain ⟨d', hd', moved⟩ := mem_allocatable_iff.mp ((domain name).mp ⟨r, hr⟩)
      rw [Option.some.inj (hd.symm.trans hd'), moved] at fixed
      cases fixed
    rw [register?_withRegisters, hd, absent]
    rfl
  constructor
  case code => rfl
  case apart =>
    intro a b index differs ha hb hba hbb same
    obtain ⟨r, hr⟩ := (domain a).mpr ha
    rw [given ha, given hb, hr] at same
    refine colours.apart (mem_interference_iff.mpr ⟨differs, ha, hb, index, hba, hbb⟩) hr
      same.symm rfl
  case unreserved =>
    intro a name d ha hd fixed nonneg same
    rw [given ha] at same
    obtain ⟨_, ⟨_, -, free, -⟩, -⟩ := colours.found same
    exact free (mem_reserved_iff.mpr ⟨nonneg, name, d, hd, fixed, rfl⟩)
  case kept => exact kept
  case absent =>
    intro name hname
    rw [register?_withRegisters, hname]
    rfl
  case assigned =>
    intro a r
    constructor
    · intro hr
      have ha := (domain a).mp ⟨r, hr⟩
      exact ⟨ha, (given ha).trans hr⟩
    · rintro ⟨ha, hr⟩
      exact (given ha).symm.trans hr
  case total =>
    intro a ha
    rw [given ha]
    exact (domain a).mpr ha
  case few =>
    intro positive
    have used : Allocation.registersUsed ⟨method.name, assignments⟩ ≤ budget.toNat :=
      registersUsed_le (by omega) colours
    omega
  case word =>
    intro a r small ha hr
    rw [given ha] at hr
    obtain ⟨passed, found, few, -⟩ := colours.found hr
    have := degree_add_reserved_lt ha
    exact found.range (by omega)
  case bounded =>
    intro a r roomy ha hr
    rw [given ha] at hr
    obtain ⟨passed, found, few, -⟩ := colours.found hr
    obtain ⟨-, low, nonneg, room⟩ := base_eq roomy
    have := degree_add_reserved_lt ha
    have node : method.interference.contains a = true := InterferenceGraph.contains_build.mpr ha
    have := InterferenceGraph.degree_le_maxDegree node
    rw [found.eq_add nonneg low (by omega)]
    omega
  case within =>
    intro a r roomy positive ha hr
    rw [given ha] at hr
    obtain ⟨passed, found, few, within⟩ := colours.found hr
    obtain ⟨-, low, nonneg, room⟩ := base_eq roomy
    have := degree_add_reserved_lt ha
    have := within.resolve_left (by omega)
    rw [found.eq_add nonneg low (by omega)]
    omega

theorem coloured_of_allocate (enabled : 0 ≤ budget)
    (h : method.allocate budget = .ok (allocated, allocation)) :
    method.Coloured budget allocated allocation := by
  rw [allocate_eq enabled] at h
  cases hsimplify : method.interference.simplify budget.toNat with
  | error required => simp [hsimplify] at h
  | ok order =>
    rw [hsimplify] at h
    cases h
    exact coloured_of_simplify hsimplify

/-- The allocator succeeds exactly when the graph can be taken apart within the budget, and
what it gives then is a colouring. Where register numbers have room, no addition on them leaves
their range: the base is above all reserved registers, and all that are given are above the
base. -/
theorem allocate_coloured (method : Method) {budget : Int} (enabled : 0 ≤ budget) :
    (method.Roomy →
      (method.reserved = [] ∧ method.base = 0 ∨ method.base - 1 ∈ method.reserved) ∧
        (∀ r ∈ method.reserved, r < method.base) ∧ 0 ≤ method.base ∧
          method.base + method.vars.size < 2147483648) ∧
    (∀ error, method.allocate budget = .error error ↔
      ∃ required, method.interference.simplify budget.toNat = .error required ∧
        error = ⟨method.name, budget.toNat, required⟩) ∧
    ∀ allocated allocation, method.allocate budget = .ok (allocated, allocation) →
      method.Coloured budget allocated allocation := by
  refine ⟨base_eq, ?_, fun _ _ h => coloured_of_allocate enabled h⟩
  intro error
  rw [allocate_eq enabled]
  cases method.interference.simplify budget.toNat with
  | error required => simp [eq_comm]
  | ok order => simp

/-- A method that returns the sum of its parameter and of two numbers that it stores first. -/
def overlapping : Method where
  name := "f"
  isPublic := true
  isStatic := false
  params := [⟨"p", .int⟩]
  returnType := .int
  code :=
    [.assign (.operand "a" .int) (.single (.literal "1" .int)),
     .assign (.operand "b" .int) (.single (.literal "2" .int)),
     .assign (.operand "t0" .int) (.binary .add (.operand "a" .int) (.operand "b" .int) .int),
     .assign (.operand "t1" .int) (.binary .add (.operand "t0" .int) (.operand "p" .int) .int),
     .ret (some (.operand "t1" .int))]
  vars := .ofList
    [("this", ⟨.localVar, 0, .object "A"⟩), ("p", ⟨.parameter, 1, .int⟩),
     ("a", ⟨.localVar, 2, .int⟩), ("b", ⟨.localVar, 3, .int⟩), ("t0", ⟨.localVar, 4, .int⟩),
     ("t1", ⟨.localVar, 5, .int⟩)]

/-- Two registers are enough for the four variables, and one is not. -/
theorem allocate_coloured_overlapping :
    overlapping.Roomy ∧ overlapping.base - 1 ∈ overlapping.reserved ∧
    overlapping.allocate 1 = .error ⟨"f", 1, 2⟩ ∧
    ∃ allocated allocation, overlapping.allocate 2 = .ok (allocated, allocation) ∧
      overlapping.Coloured 2 allocated allocation ∧ allocated.register? "a" = some 3 ∧
      allocated.register? "b" = some 2 ∧ allocation.registersUsed = 2 := by
  have roomy : overlapping.Roomy := by
    unfold Roomy
    decide
  refine ⟨roomy, ?_, ?_, _, _, rfl, ?_, ?_⟩
  · refine ((allocate_coloured overlapping (by decide : (0 : Int) ≤ 2)).1 roomy).1.resolve_left ?_
    decide +kernel
  · refine ((allocate_coloured overlapping (by decide)).2.1 _).mpr ⟨2, ?_, rfl⟩
    decide +kernel
  · exact (allocate_coloured overlapping (by decide)).2.2 _ _ rfl
  · decide +kernel

end Method
end ClassCompiler
