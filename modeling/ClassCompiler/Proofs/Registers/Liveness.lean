import ClassCompiler.Proofs.Collections
import ClassCompiler.Registers.Liveness
import Mathlib.Algebra.Group.Action.Defs
import Mathlib.Algebra.Order.BigOperators.Group.List
import Mathlib.Algebra.Order.Ring.Nat

/-! The analysis of liveness comes to an end where every set is what its equation says: what is
live before an instruction is what it reads, and what is live after it and not written by it.
The sets only grow, and hold no variable that nothing reads; as long as a sweep changes
something, it makes their sizes together greater. -/

namespace ClassCompiler
set_option autoImplicit false

namespace Flow
variable {flow : Flow} {before after : List NameSet} {index : Nat} {x : String}

theorem mem_foldl_union {successors : List Nat} {start : NameSet} :
    x ∈ successors.foldl (fun live s => live.union (before.getD s {})) start ↔
      x ∈ start ∨ ∃ s ∈ successors, x ∈ before.getD s {} := by
  induction successors generalizing start with
  | nil => simp
  | cons first rest ih =>
    simp only [List.foldl_cons, ih, NameSet.mem_union, List.mem_cons, or_and_right, exists_or,
      exists_eq_left, or_assoc]

/-- What is live after an instruction is what is live before one of those that may follow. -/
theorem mem_liveOut : x ∈ flow.liveOut before index ↔
    ∃ s ∈ flow.successors.getD index [], x ∈ before.getD s {} := by
  rw [liveOut, mem_foldl_union]
  exact or_iff_right (NameSet.not_mem_empty x)

theorem mem_transfer : x ∈ flow.transfer before index ↔
    x ∈ flow.uses.getD index {} ∨
      x ∈ flow.liveOut before index ∧ x ∉ flow.defs.getD index {} := by
  rw [transfer, NameSet.mem_union, NameSet.mem_diff]

def Below (before after : List NameSet) : Prop :=
  ∀ index, ∀ x ∈ before.getD index {}, x ∈ after.getD index {}

theorem transfer_mono (h : Below before after) (hx : x ∈ flow.transfer before index) :
    x ∈ flow.transfer after index := by
  simp only [mem_transfer, mem_liveOut] at hx ⊢
  refine hx.imp_right fun ⟨⟨s, hs, live⟩, kept⟩ => ⟨⟨s, hs, h s x live⟩, kept⟩

/-- What holds of the sets from the first sweep on: no set has more than its equation gives,
nor a variable that nothing reads. -/
structure Growing (flow : Flow) (sets : List NameSet) : Prop where
  length : sets.length = flow.length
  below : ∀ index, ∀ x ∈ sets.getD index {}, x ∈ flow.transfer sets index
  read : ∀ index, ∀ x ∈ sets.getD index {}, ∃ uses ∈ flow.uses, x ∈ uses

def weight (sets : List NameSet) : Nat := (sets.map NameSet.size).sum

theorem weight_lt_weight_set {sets : List NameSet} {set : NameSet} {index : Nat}
    (inside : index < sets.length) (less : sets[index].size < set.size) :
    weight sets < weight (sets.set index set) := by
  unfold weight
  induction sets generalizing index with
  | nil => cases inside
  | cons first rest ih =>
    cases index with
    | zero =>
      simp only [List.getElem_cons_zero] at less
      simp only [List.set_cons_zero, List.map_cons, List.sum_cons]
      omega
    | succ index =>
      have := ih (Nat.lt_of_succ_lt_succ inside) less
      simp only [List.set_cons_succ, List.map_cons, List.sum_cons]
      omega

theorem exists_uses_of_mem_transfer (growing : Growing flow before)
    (hx : x ∈ flow.transfer before index) : ∃ uses ∈ flow.uses, x ∈ uses := by
  rcases mem_transfer.mp hx with used | ⟨live, -⟩
  · rw [List.getD_eq_getElem?_getD] at used
    cases huses : flow.uses[index]? with
    | none =>
      rw [huses] at used
      exact absurd used (NameSet.not_mem_empty x)
    | some uses =>
      rw [huses] at used
      exact ⟨uses, List.mem_of_getElem? huses, used⟩
  · obtain ⟨s, -, live⟩ := mem_liveOut.mp live
    exact growing.read s x live

theorem Growing.relax (growing : Growing flow before) (inside : index < flow.length) :
    Growing flow (flow.relax before index) ∧
      (flow.relax before index = before ∨ weight before < weight (flow.relax before index)) := by
  have place : index < before.length := growing.length ▸ inside
  have grown : Below before (flow.relax before index) := by
    intro other x hx
    rw [Flow.relax, getD_set place]
    split
    · rename_i same
      exact growing.below index x (same ▸ hx)
    · exact hx
  refine ⟨⟨?_, ?_, ?_⟩, ?_⟩
  · rw [Flow.relax, List.length_set, growing.length]
  · intro other x hx
    refine transfer_mono grown ?_
    rw [Flow.relax, getD_set place] at hx
    split at hx
    · rename_i same
      exact same ▸ hx
    · exact growing.below other x hx
  · intro other x hx
    rw [Flow.relax, getD_set place] at hx
    split at hx
    · exact exists_uses_of_mem_transfer growing hx
    · exact growing.read other x hx
  · have old : before.getD index {} = before[index] := by
      rw [List.getD_eq_getElem?_getD, List.getElem?_eq_getElem place]
      rfl
    have subset : ∀ x ∈ before[index], x ∈ flow.transfer before index := by
      intro x hx
      exact growing.below index x (old ▸ hx)
    rcases NameSet.eq_or_size_lt subset with same | less
    · refine .inl ?_
      rw [Flow.relax, ← same]
      exact List.set_getElem_self place
    · exact .inr (weight_lt_weight_set place less)

/-- To bring several instructions up to date, one after the other, leaves all of them as they are
or makes the sets greater. -/
theorem Growing.foldl_relax (growing : Growing flow before) (indices : List Nat)
    (inside : ∀ index ∈ indices, index < flow.length) :
    Growing flow (indices.foldl flow.relax before) ∧
      ((indices.foldl flow.relax before = before ∧
          ∀ index ∈ indices, flow.relax before index = before) ∨
        weight before < weight (indices.foldl flow.relax before)) := by
  induction indices generalizing before with
  | nil => exact ⟨growing, .inl ⟨rfl, by simp⟩⟩
  | cons first rest ih =>
    obtain ⟨next, same | greater⟩ := growing.relax (inside first List.mem_cons_self)
    · have others := ih growing fun index h => inside index (List.mem_cons_of_mem _ h)
      simp only [List.foldl_cons, same]
      refine ⟨others.1, others.2.imp_left fun ⟨unchanged, fixed⟩ => ⟨unchanged, ?_⟩⟩
      exact List.forall_mem_cons.mpr ⟨same, fixed⟩
    · obtain ⟨last, others⟩ := ih next fun index h => inside index (List.mem_cons_of_mem _ h)
      refine ⟨last, .inr ?_⟩
      rw [List.foldl_cons]
      rcases others with ⟨unchanged, -⟩ | more
      · rw [unchanged]
        exact greater
      · exact Nat.lt_trans greater more

theorem Growing.sweep (growing : Growing flow before) : Growing flow (flow.sweep before) ∧
    (flow.sweep before = before ∧ (∀ index < flow.length, flow.relax before index = before) ∨
      weight before < weight (flow.sweep before)) := by
  have swept := growing.foldl_relax (List.range flow.length).reverse (by simp)
  simpa [Flow.sweep] using swept

theorem useCount_eq_sum : flow.useCount = (flow.uses.map NameSet.size).sum := by
  rw [useCount, List.sum, List.foldr_map]

/-- The sets are never greater together than all that is read, taken once for every
instruction. -/
theorem Growing.weight_le (growing : Growing flow before) :
    weight before ≤ flow.length * flow.useCount := by
  have each : ∀ size ∈ before.map NameSet.size, size ≤ flow.useCount := by
    intro size hsize
    obtain ⟨set, hset, rfl⟩ := List.mem_map.mp hsize
    obtain ⟨index, hindex⟩ := List.mem_iff_getElem?.mp hset
    have inside : set.toList ⊆ flow.uses.flatMap NameSet.toList := by
      intro x hx
      refine List.mem_flatMap.mpr (growing.read index x ?_)
      rw [List.getD_eq_getElem?_getD, hindex]
      exact hx
    have bound := set.nodup_toList.length_le_of_subset inside
    rw [List.length_flatMap] at bound
    exact useCount_eq_sum ▸ bound
  have total := List.sum_le_card_nsmul _ _ each
  rwa [List.length_map, growing.length, smul_eq_mul] at total

/-- With fuel enough, sweeping ends at sets that a sweep leaves as they are. -/
theorem Growing.settle (growing : Growing flow before) (fuel : Nat)
    (enough : flow.length * flow.useCount < fuel + weight before) :
    Growing flow (flow.settle fuel before) ∧
      ∀ index < flow.length, flow.relax (flow.settle fuel before) index = flow.settle fuel before := by
  -- Each sweep that changes anything adds to the weight, which has a bound.
  induction fuel generalizing before with
  | zero =>
    have := growing.weight_le
    omega
  | succ fuel ih =>
    obtain ⟨swept, progress⟩ := growing.sweep
    simp only [Flow.settle]
    split
    · rename_i same
      rcases progress with ⟨-, fixed⟩ | more
      · exact ⟨growing, fixed⟩
      · rw [same] at more
        exact absurd more (Nat.lt_irrefl _)
    · rename_i changed
      rcases progress with ⟨same, -⟩ | more
      · exact absurd same changed
      · exact ih swept (by omega)

theorem getD_replicate_empty (length index : Nat) :
    (List.replicate length ({} : NameSet)).getD index {} = {} := by
  rw [List.getD_eq_getElem?_getD, List.getElem?_replicate]
  split <;> rfl

theorem growing_replicate (flow : Flow) : Growing flow (List.replicate flow.length {}) := by
  refine ⟨List.length_replicate, ?_, ?_⟩
  all_goals
    intro index x hx
    rw [getD_replicate_empty] at hx
    exact absurd hx (NameSet.not_mem_empty x)

theorem growing_liveIn (flow : Flow) : Growing flow flow.liveIn ∧
    ∀ index < flow.length, flow.relax flow.liveIn index = flow.liveIn :=
  (growing_replicate flow).settle (flow.length * flow.useCount + 1) (by omega)

/-- What is live before an instruction is what its equation says. -/
theorem liveIn_eq_transfer (inside : index < flow.length) :
    flow.liveIn.getD index {} = flow.transfer flow.liveIn index := by
  obtain ⟨settled, fixed⟩ := growing_liveIn flow
  have same : flow.relax flow.liveIn index = flow.liveIn := fixed index inside
  have changed := getD_set (settled.length ▸ inside) (flow.transfer flow.liveIn index) index {}
  rw [if_pos rfl] at changed
  rw [← changed]
  exact congrArg (·.getD index {}) same.symm

end Flow
end ClassCompiler
