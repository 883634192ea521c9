import ClassCompiler.Proofs.Registers.Preservation
import ClassCompiler.Proofs.Semantics.Execution
import Mathlib.Logic.Function.Iterate

/-! Liveness is exact. A variable is found to be live before an instruction if and only if there is
a path from there to an instruction that reads it, along which no instruction before that one
writes it. All that is ever put into a set has such a path, since it is there for a read or comes
from the set of a successor; and the sets that are left in the end have all of it, since they
satisfy their equations. That the end is reached, and when, is counted in sweeps over the sets
before and after every instruction, both kept up to date in place. -/

namespace ClassCompiler
set_option autoImplicit false

namespace Flow

/-- Control can go along a path of some steps from a place to a read of a variable that is not
written on the way. -/
structure ReadsAlong (flow : Flow) (x : String) (index steps : Nat) (path : Nat → Nat) :
    Prop where
  start : path 0 = index
  follows : ∀ j < steps, path (j + 1) ∈ flow.successors.getD (path j) []
  read : x ∈ flow.uses.getD (path steps) {}
  kept : ∀ j < steps, x ∉ flow.defs.getD (path j) {}

/-- Some path from a place leads to a read of a variable before any write of it. -/
def Awaits (flow : Flow) (x : String) (index : Nat) : Prop :=
  ∃ steps path, flow.ReadsAlong x index steps path

section
variable {flow : Flow} {x : String} {index next : Nat} {sets : List NameSet}

theorem Awaits.of_use (used : x ∈ flow.uses.getD index {}) : flow.Awaits x index :=
  ⟨0, fun _ => index, rfl, by simp, used, by simp⟩

theorem Awaits.of_successor (follows : next ∈ flow.successors.getD index [])
    (kept : x ∉ flow.defs.getD index {}) (h : flow.Awaits x next) : flow.Awaits x index := by
  obtain ⟨steps, path, h⟩ := h
  refine ⟨steps + 1, fun j => if j = 0 then index else path (j - 1), rfl, ?_, ?_, ?_⟩
  · intro j hj
    cases j with
    | zero => simpa [h.start] using follows
    | succ j => simpa using h.follows j (Nat.lt_of_succ_lt_succ hj)
  · simpa using h.read
  · intro j hj
    cases j with
    | zero => simpa using kept
    | succ j => simpa using h.kept j (Nat.lt_of_succ_lt_succ hj)

theorem ReadsAlong.tail {steps : Nat} {path : Nat → Nat}
    (h : flow.ReadsAlong x index (steps + 1) path) :
    flow.ReadsAlong x (path 1) steps fun j => path (j + 1) where
  start := rfl
  follows j hj := h.follows (j + 1) (Nat.succ_lt_succ hj)
  read := h.read
  kept j hj := h.kept (j + 1) (Nat.succ_lt_succ hj)

def Sound (flow : Flow) (sets : List NameSet) : Prop :=
  ∀ index, ∀ x ∈ sets.getD index {}, flow.Awaits x index

theorem sound_replicate (flow : Flow) (length : Nat) : flow.Sound (List.replicate length {}) := by
  intro index x hx
  rw [getD_replicate_empty] at hx
  exact absurd hx (NameSet.not_mem_empty x)

theorem Sound.transfer (sound : flow.Sound sets) (hx : x ∈ flow.transfer sets index) :
    flow.Awaits x index := by
  rcases mem_transfer.mp hx with used | ⟨live, kept⟩
  · exact .of_use used
  · obtain ⟨next, follows, live⟩ := mem_liveOut.mp live
    exact (sound next x live).of_successor follows kept

theorem Sound.relax (sound : flow.Sound sets) (index : Nat) :
    flow.Sound (flow.relax sets index) := by
  intro other x hx
  rw [Flow.relax] at hx
  by_cases inside : index < sets.length
  · rw [getD_set inside] at hx
    split at hx
    · rename_i same
      exact same ▸ sound.transfer hx
    · exact sound other x hx
  · rw [List.set_eq_of_length_le (Nat.le_of_not_lt inside)] at hx
    exact sound other x hx

theorem Sound.foldl_relax (sound : flow.Sound sets) (indices : List Nat) :
    flow.Sound (indices.foldl flow.relax sets) := by
  induction indices generalizing sets with
  | nil => exact sound
  | cons first rest ih => exact ih (sound.relax first)

theorem Sound.iterate_sweep (sound : flow.Sound sets) (rounds : Nat) :
    flow.Sound (flow.sweep^[rounds] sets) := by
  induction rounds generalizing sets with
  | zero => exact sound
  | succ rounds ih => exact ih (sound.foldl_relax _)

theorem exists_iterate_eq_settle (flow : Flow) (fuel : Nat) (sets : List NameSet) :
    ∃ rounds ≤ fuel, flow.sweep^[rounds] sets = flow.settle fuel sets := by
  induction fuel generalizing sets with
  | zero => exact ⟨0, Nat.le_refl 0, rfl⟩
  | succ fuel ih =>
    simp only [settle]
    split
    · exact ⟨0, Nat.zero_le _, rfl⟩
    · obtain ⟨rounds, bound, h⟩ := ih (flow.sweep sets)
      exact ⟨rounds + 1, Nat.succ_le_succ bound, h⟩

theorem sound_liveIn (flow : Flow) : flow.Sound flow.liveIn := by
  obtain ⟨rounds, -, h⟩ := flow.exists_iterate_eq_settle
    (flow.length * flow.useCount + 1) (List.replicate flow.length {})
  rw [liveIn, ← h]
  exact (flow.sound_replicate _).iterate_sweep rounds

theorem lt_length_of_mem_successors (follows : next ∈ flow.successors.getD index []) :
    index < flow.length := by
  by_contra past
  rw [List.getD_eq_getElem?_getD, List.getElem?_eq_none (Nat.le_of_not_lt past)] at follows
  exact List.not_mem_nil follows

theorem lt_length_of_mem_uses (used : x ∈ flow.uses.getD index {}) :
    index < flow.uses.length := by
  by_contra past
  rw [List.getD_eq_getElem?_getD, List.getElem?_eq_none (Nat.le_of_not_lt past)] at used
  exact NameSet.not_mem_empty x used

/-- The induction is on the length of the path: a read is live where it is, and what is live
before a successor is live before an instruction that does not write it. -/
theorem mem_liveIn_of_readsAlong (aligned : flow.uses.length = flow.length) {steps : Nat}
    {path : Nat → Nat} (h : flow.ReadsAlong x index steps path) :
    x ∈ flow.liveIn.getD index {} := by
  induction steps generalizing index path with
  | zero =>
    have used : x ∈ flow.uses.getD index {} := h.start ▸ h.read
    rw [liveIn_eq_transfer (aligned ▸ lt_length_of_mem_uses used)]
    exact mem_transfer.mpr (.inl used)
  | succ steps ih =>
    have follows : path 1 ∈ flow.successors.getD index [] :=
      h.start ▸ h.follows 0 (Nat.succ_pos steps)
    have kept : x ∉ flow.defs.getD index {} := h.start ▸ h.kept 0 (Nat.succ_pos steps)
    have live : x ∈ flow.liveOut flow.liveIn index :=
      mem_liveOut.mpr ⟨path 1, follows, ih h.tail⟩
    rw [liveIn_eq_transfer (lt_length_of_mem_successors follows)]
    exact mem_transfer.mpr (.inr ⟨live, kept⟩)

/-- A variable is live before an instruction if and only if some path from there leads to a read
of it before any write of it. -/
theorem mem_liveIn_iff (aligned : flow.uses.length = flow.length) :
    x ∈ flow.liveIn.getD index {} ↔ flow.Awaits x index := by
  constructor
  · exact flow.sound_liveIn index x
  · rintro ⟨steps, path, h⟩
    exact mem_liveIn_of_readsAlong aligned h

end

def emptySets (flow : Flow) : List NameSet × List NameSet :=
  (List.replicate flow.length {}, List.replicate flow.length {})

/-- Brings one instruction up to date, the set before it and the set after it. -/
def relaxBoth (flow : Flow) (sets : List NameSet × List NameSet) (index : Nat) :
    List NameSet × List NameSet :=
  (flow.relax sets.1 index, sets.2.set index (flow.liveOut sets.1 index))

/-- Brings every instruction up to date, from the last to the first, the sets before them and
the sets after them. -/
def sweepBoth (flow : Flow) (sets : List NameSet × List NameSet) :
    List NameSet × List NameSet :=
  (List.range flow.length).reverse.foldl flow.relaxBoth sets

section
variable {flow : Flow} {sets : List NameSet × List NameSet}

theorem fst_foldl_relaxBoth (flow : Flow) (sets : List NameSet × List NameSet)
    (indices : List Nat) :
    (indices.foldl flow.relaxBoth sets).1 = indices.foldl flow.relax sets.1 := by
  induction indices generalizing sets with
  | nil => rfl
  | cons first rest ih => exact ih (flow.relaxBoth sets first)

theorem fst_iterate_sweepBoth (flow : Flow) (rounds : Nat) (sets : List NameSet × List NameSet) :
    (flow.sweepBoth^[rounds] sets).1 = flow.sweep^[rounds] sets.1 := by
  induction rounds generalizing sets with
  | zero => rfl
  | succ rounds ih =>
    rw [Function.iterate_succ_apply, Function.iterate_succ_apply, ih]
    exact congrArg flow.sweep^[rounds] (flow.fst_foldl_relaxBoth sets _)

theorem length_foldl_relaxBoth (flow : Flow) (sets : List NameSet × List NameSet)
    (indices : List Nat) : (indices.foldl flow.relaxBoth sets).1.length = sets.1.length ∧
      (indices.foldl flow.relaxBoth sets).2.length = sets.2.length := by
  induction indices generalizing sets with
  | nil => exact ⟨rfl, rfl⟩
  | cons first rest ih =>
    have rest := ih (flow.relaxBoth sets first)
    simpa [relaxBoth, relax] using rest

theorem length_iterate_sweepBoth (flow : Flow) (rounds : Nat)
    (sets : List NameSet × List NameSet) :
    (flow.sweepBoth^[rounds] sets).1.length = sets.1.length ∧
      (flow.sweepBoth^[rounds] sets).2.length = sets.2.length := by
  induction rounds generalizing sets with
  | zero => exact ⟨rfl, rfl⟩
  | succ rounds ih =>
    have rest := ih (flow.sweepBoth sets)
    have first := flow.length_foldl_relaxBoth sets (List.range flow.length).reverse
    exact ⟨rest.1.trans first.1, rest.2.trans first.2⟩

/-- Where the sets before the instructions change no more, those after them are computed from
them, one by one. -/
theorem foldl_relaxBoth_of_fixed {before after : List NameSet} (indices : List Nat)
    (fixed : ∀ index ∈ indices, flow.relax before index = before) :
    indices.foldl flow.relaxBoth (before, after) =
      (before, indices.foldl (fun after i => after.set i (flow.liveOut before i)) after) := by
  induction indices generalizing after with
  | nil => rfl
  | cons first rest ih =>
    obtain ⟨same, others⟩ := List.forall_mem_cons.mp fixed
    rw [List.foldl_cons, relaxBoth, same]
    exact ih others

theorem getElem?_foldl_set (f : Nat → NameSet) (indices : List Nat) (after : List NameSet)
    (index : Nat) : (indices.foldl (fun after i => after.set i (f i)) after)[index]? =
      if index ∈ indices ∧ index < after.length then some (f index) else after[index]? := by
  induction indices generalizing after with
  | nil => simp
  | cons first rest ih =>
    rw [List.foldl_cons, ih, List.length_set, List.getElem?_set]
    by_cases same : index = first
    · subst same
      by_cases inside : index < after.length <;> simp [inside]
    · simp [same, Ne.symm same]

/-- One sweep after the sets before the instructions have settled, those after them have as well.
-/
theorem sweepBoth_of_fixed {before after : List NameSet} (length : after.length = flow.length)
    (fixed : ∀ index < flow.length, flow.relax before index = before) :
    flow.sweepBoth (before, after) =
      (before, (List.range flow.length).map (flow.liveOut before)) := by
  rw [sweepBoth, foldl_relaxBoth_of_fixed _ (by simpa using fixed)]
  refine congrArg (Prod.mk before) (List.ext_getElem? fun index => ?_)
  rw [getElem?_foldl_set]
  by_cases inside : index < flow.length
  · simp [inside, length]
  · simp [inside, length]

end

/-- Neither the sets before the instructions nor those after them are changed any more by bringing
an instruction up to date, once the analysis is done. -/
theorem relaxBoth_liveIn (flow : Flow) {index : Nat} (inside : index < flow.length) :
    flow.relaxBoth (flow.liveIn, (List.range flow.length).map (flow.liveOut flow.liveIn)) index =
      (flow.liveIn, (List.range flow.length).map (flow.liveOut flow.liveIn)) := by
  rw [relaxBoth, (growing_liveIn flow).2 index inside]
  refine congrArg (Prod.mk flow.liveIn) (List.ext_getElem? fun other => ?_)
  rw [List.getElem?_set]
  split
  · rename_i same
    subst same
    simp [inside]
  · rfl

/-- From empty sets, so many sweeps at most lead to what the analysis finds. -/
theorem exists_iterate_sweepBoth (flow : Flow) :
    ∃ rounds ≤ flow.length * flow.useCount + 2,
      flow.sweepBoth^[rounds] flow.emptySets =
        (flow.liveIn, (List.range flow.length).map (flow.liveOut flow.liveIn)) := by
  obtain ⟨rounds, bound, h⟩ := flow.exists_iterate_eq_settle
    (flow.length * flow.useCount + 1) (List.replicate flow.length {})
  refine ⟨rounds + 1, Nat.succ_le_succ bound, ?_⟩
  generalize hboth : flow.sweepBoth^[rounds] flow.emptySets = both
  have before : both.1 = flow.liveIn := by
    rw [← hboth, fst_iterate_sweepBoth, emptySets, h, liveIn]
  have length : both.2.length = flow.length := by
    rw [← hboth, (flow.length_iterate_sweepBoth rounds _).2, emptySets, List.length_replicate]
  rw [Function.iterate_succ_apply', hboth, ← Prod.mk.eta (p := both), before]
  exact sweepBoth_of_fixed length (growing_liveIn flow).2

section
variable {code : List Instruction} {index next : Nat} {i : Instruction}

theorem lt_length_of_labelIndex? {name : String} (h : labelIndex? code name = some index) :
    index < code.length :=
  (List.getElem?_eq_some_iff.mp (getElem?_of_labelIndex? h)).1

theorem lt_length_of_next? (h : next? code index = some next) : next < code.length := by
  unfold next? at h
  split at h
  · obtain rfl := Option.some.inj h
    assumption
  · cases h

/-- Control goes only to places of the code, whatever labels are missing or repeated. -/
theorem lt_length_of_mem_successorsOf (h : next ∈ successorsOf code index i) :
    next < code.length := by
  have jump : ∀ {target}, next ∈ (labelIndex? code target).toList → next < code.length :=
    fun h => lt_length_of_labelIndex? (Option.mem_toList.mp h)
  have fall : next ∈ (next? code index).toList → next < code.length :=
    fun h => lt_length_of_next? (Option.mem_toList.mp h)
  cases i with
  | ret => cases h
  | goto => exact jump h
  | branch =>
    rcases List.mem_append.mp h with h | h
    · exact jump h
    · exact fall (List.mem_of_mem_filter h)
  | _ => exact fall h

theorem lt_length_of_mem_successors_ofCode
    (h : next ∈ (ofCode code).successors.getD index []) : next < code.length := by
  cases hi : code[index]? with
  | none => simp [ofCode, List.getElem?_zipIdx, hi] at h
  | some i =>
    have follows : next ∈ successorsOf code index i := by
      simpa [ofCode, List.getElem?_zipIdx, hi] using h
    exact lt_length_of_mem_successorsOf follows

end
end Flow

/-- An analysis of a piece of code that came to its end, reached for nothing that is not there,
and found all there is to find and nothing else. -/
structure Liveness.Exact (code : List Instruction) (live : Liveness) : Prop where
  flow : live.flow = Flow.ofCode code
  /-- There is an entry for every instruction. -/
  lengths : live.flow.successors.length = code.length ∧ live.flow.defs.length = code.length ∧
    live.flow.uses.length = code.length ∧ live.liveIn.length = code.length ∧
    live.liveOut.length = code.length
  /-- So there is whatever instructions were brought up to date on the way. -/
  lengths_meanwhile : ∀ indices : List Nat,
    (indices.foldl live.flow.relaxBoth live.flow.emptySets).1.length = code.length ∧
      (indices.foldl live.flow.relaxBoth live.flow.emptySets).2.length = code.length
  /-- Control goes only to instructions. -/
  inside : ∀ index, ∀ next ∈ live.flow.successors.getD index [], next < code.length
  /-- The sets are reached after a number of sweeps. -/
  reached : ∃ rounds ≤ code.length * live.flow.useCount + 2,
    live.flow.sweepBoth^[rounds] live.flow.emptySets = (live.liveIn, live.liveOut)
  /-- To bring any instruction up to date changes nothing then. -/
  settled : ∀ index < code.length,
    live.flow.relaxBoth (live.liveIn, live.liveOut) index = (live.liveIn, live.liveOut)
  /-- A variable is live before an instruction if and only if there is a path to a read of it. -/
  mem_liveIn : ∀ index x, x ∈ live.liveIn.getD index {} ↔
    ∃ steps path, live.flow.ReadsAlong x index steps path
  /-- A variable is live after an instruction if and only if it is live before a successor. -/
  mem_liveOut : ∀ index x, x ∈ live.liveOut.getD index {} ↔
    ∃ next ∈ live.flow.successors.getD index [], x ∈ live.liveIn.getD next {}

/-- Liveness is exact for every list of instructions, with labels missing or repeated and with
code that is never reached. -/
theorem Liveness.analyze_exact (method : Method) :
    Liveness.Exact method.code (Liveness.analyze method) := by
  have length := method.length_flow
  have aligned : (Flow.ofCode method.code).uses.length = (Flow.ofCode method.code).length := by
    rw [length]
    simp [Flow.ofCode]
  refine
    { flow := rfl
      lengths := ⟨length, by simp [analyze, Flow.ofCode], aligned.trans length,
        (Flow.growing_liveIn _).1.length.trans length, by simp [analyze, length]⟩
      lengths_meanwhile := ?_
      inside := fun _ _ => Flow.lt_length_of_mem_successors_ofCode
      reached := length ▸ (Flow.ofCode method.code).exists_iterate_sweepBoth
      settled := fun _ h => (Flow.ofCode method.code).relaxBoth_liveIn (length ▸ h)
      mem_liveIn := fun _ _ => Flow.mem_liveIn_iff aligned
      mem_liveOut := ?_ }
  · intro indices
    have empty : (List.replicate (Flow.ofCode method.code).length ({} : NameSet)).length =
        method.code.length := by rw [List.length_replicate, length]
    obtain ⟨before, after⟩ := Flow.length_foldl_relaxBoth _ (Flow.emptySets _) indices
    exact ⟨before.trans empty, after.trans empty⟩
  · intro index x
    rw [← Flow.mem_liveOut]
    by_cases inside : index < (Flow.ofCode method.code).length
    · simp [analyze, inside]
    · have none : (analyze method).liveOut[index]? = none := by
        simp [analyze, Nat.le_of_not_lt inside]
      rw [List.getD_eq_getElem?_getD, none]
      refine iff_of_false (NameSet.not_mem_empty x) fun live => inside ?_
      obtain ⟨next, follows, -⟩ := Flow.mem_liveOut.mp live
      exact Flow.lt_length_of_mem_successors follows

/-- The branch goes on where its label is missing, and the jump goes to the second of two labels:
`i` is read at the end, but not live before the assignment. -/
example : (Flow.ofCode [.label "again", .branch (.single (.operand "i" .int)) "nowhere",
    .assign (.operand "i" .int) (.single (.operand "j" .int)), .goto "again", .label "again",
    .ret (some (.operand "i" .int))]).liveIn.map (·.toList) =
      [["i", "j"], ["i", "j"], ["j"], ["i"], ["i"], ["i"]] := by decide

end ClassCompiler
