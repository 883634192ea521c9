import ClassCompiler.Lowering.Frame
import ClassCompiler.Proofs.Runs
import ClassCompiler.Proofs.Text.Numeral
import ClassCompiler.Text.NameMap.Lemmas
import Mathlib.Data.List.Nodup
import Mathlib.Logic.Relation

/-! How the frame of a method grows while the method is lowered. A frame changes in three
ways only: a variable is declared, a temporary is added, or a label number is used up.
Whatever these three keep is kept by lowering as a whole. -/

namespace ClassCompiler
set_option autoImplicit false

theorem le_length_of_forall_mem {α : Type} {f : Nat → α} (hf : Function.Injective f) {n : Nat}
    {list : List α} (h : ∀ i < n, f i ∈ list) : n ≤ list.length := by
  have distinct : ((List.range n).map f).Nodup := List.Nodup.map hf List.nodup_range
  have inside : (List.range n).map f ⊆ list := by
    intro x hx
    obtain ⟨i, hi, rfl⟩ := List.mem_map.mp hx
    exact h i (List.mem_range.mp hi)
  simpa using distinct.length_le_of_subset inside

namespace Frame

/-- A variable has a register in a frame: it is a local, a parameter or a temporary. -/
def Holds (frame : Frame) (name : String) : Prop :=
  ∃ d, frame.vars.get? name = some d ∧ d.scope ≠ .field

theorem temporaryName_injective : Function.Injective temporaryName := by
  intro m n h
  have lists := congrArg String.toList h
  simp only [temporaryName, String.toList_append] at lists
  exact Text.toString_injective (String.toList_inj.mp (List.append_cancel_left lists))

/-- The number that is found fails only if all the numbers that were tried do. -/
theorem contains_of_freeNumber {frame : Frame} {steps number : Nat}
    (h : frame.vars.contains (temporaryName (frame.freeNumber steps number)) = true) :
    ∀ i ≤ steps, frame.vars.contains (temporaryName (number + i)) = true := by
  induction steps generalizing number with
  | zero =>
    intro i hi
    obtain rfl : i = 0 := by omega
    exact h
  | succ steps ih =>
    by_cases hc : frame.vars.contains (temporaryName number) = true
    · rw [freeNumber, if_pos hc] at h
      intro i hi
      cases i with
      | zero => exact hc
      | succ i =>
        have := ih h i (by omega)
        rwa [show number + 1 + i = number + (i + 1) by omega] at this
    · rw [freeNumber, if_neg hc] at h
      exact absurd h hc

theorem freshName_not_contained (frame : Frame) (type : CodeType) :
    frame.vars.get? (frame.freshName type).1 = none := by
  cases hget : frame.vars.get? (frame.freshName type).1 with
  | none => rfl
  | some d =>
    have taken := contains_of_freeNumber (NameMap.contains_iff.mpr ⟨d, hget⟩)
    have inside : ∀ i < frame.vars.size + 2,
        temporaryName (frame.temporaries + i) ∈ frame.vars.keys := fun i hi =>
      NameMap.mem_keys_iff.mpr (NameMap.contains_iff.mp (taken i (by omega)))
    have injective : Function.Injective fun i => temporaryName (frame.temporaries + i) :=
      fun i j h => Nat.add_left_cancel (temporaryName_injective h)
    have bound := le_length_of_forall_mem injective inside
    rw [NameMap.length_keys] at bound
    omega

theorem declare_of_contained {frame : Frame} {name : String} {d : Descriptor}
    (h : frame.vars.get? name = some d) (scope : VarScope) (type : CodeType) :
    frame.declare name scope type = frame := by
  unfold declare
  rw [if_pos (NameMap.contains_iff.mpr ⟨d, h⟩)]

def entry (frame : Frame) (scope : VarScope) (type : CodeType) : Descriptor :=
  match scope with
  | .field => ⟨.field, -1, type⟩
  | .localVar => ⟨.localVar, frame.nextRegister, type⟩
  | .parameter => ⟨.parameter, frame.nextRegister, type⟩

@[simp] theorem entry_scope (frame : Frame) (scope : VarScope) (type : CodeType) :
    (frame.entry scope type).scope = scope := by
  cases scope <;> rfl

theorem vars_declare {frame : Frame} {name : String} (h : frame.vars.get? name = none)
    (scope : VarScope) (type : CodeType) :
    (frame.declare name scope type).vars = frame.vars.insert name (frame.entry scope type) := by
  have absent : ¬ frame.vars.contains name = true := fun hc => by
    obtain ⟨d, hd⟩ := NameMap.contains_iff.mp hc
    rw [h] at hd
    cases hd
  unfold declare
  rw [if_neg absent]
  cases scope <;> rfl

theorem get?_declare (frame : Frame) (name : String) (scope : VarScope) (type : CodeType)
    (other : String) :
    (frame.declare name scope type).vars.get? other =
      if other = name then some ((frame.vars.get? name).getD (frame.entry scope type))
      else frame.vars.get? other := by
  cases h : frame.vars.get? name with
  | some d =>
    rw [declare_of_contained h]
    by_cases ho : other = name
    · simp [ho, h]
    · simp [ho]
  | none =>
    rw [vars_declare h, NameMap.get?_insert]
    rfl

@[simp] theorem method_declare (frame : Frame) (name : String) (scope : VarScope)
    (type : CodeType) : (frame.declare name scope type).method = frame.method := by
  unfold declare
  split
  · rfl
  · cases scope <;> rfl

@[simp] theorem className_declare (frame : Frame) (name : String) (scope : VarScope)
    (type : CodeType) : (frame.declare name scope type).className = frame.className := by
  unfold declare
  split
  · rfl
  · cases scope <;> rfl

@[simp] theorem labels_declare (frame : Frame) (name : String) (scope : VarScope)
    (type : CodeType) : (frame.declare name scope type).labels = frame.labels := by
  unfold declare
  split
  · rfl
  · cases scope <;> rfl

theorem get?_freshName (frame : Frame) (type : CodeType) (other : String) :
    (frame.freshName type).2.vars.get? other =
      if other = (frame.freshName type).1 then some ⟨.localVar, frame.nextRegister, type⟩
      else frame.vars.get? other := by
  have fresh := frame.freshName_not_contained type
  simp only [freshName] at fresh ⊢
  rw [get?_declare]
  by_cases h : other = temporaryName (frame.freeNumber (frame.vars.size + 1) frame.temporaries)
  · simp [h, fresh, entry]
  · simp [h]

inductive Step (frame : Frame) : Frame → Prop where
  | declare (name : String) (scope : VarScope) (type : CodeType) :
      Step frame (frame.declare name scope type)
  | fresh (type : CodeType) : Step frame (frame.freshName type).2
  | label : Step frame { frame with labels := frame.labels + 1 }

abbrev Evolves : Frame → Frame → Prop := Relation.ReflTransGen Step

theorem Evolves.trans {f g h : Frame} (first : Evolves f g) (second : Evolves g h) :
    Evolves f h :=
  Relation.ReflTransGen.trans first second

theorem Evolves.method {f g : Frame} (h : Evolves f g) : g.method = f.method := by
  induction h with
  | refl => rfl
  | tail _ last ih => cases last <;> simp [ih, freshName]

theorem Evolves.className {f g : Frame} (h : Evolves f g) : g.className = f.className := by
  induction h with
  | refl => rfl
  | tail _ last ih => cases last <;> simp [ih, freshName]

theorem Evolves.labels {f g : Frame} (h : Evolves f g) : f.labels ≤ g.labels := by
  induction h with
  | refl => exact Nat.le_refl _
  | tail _ last ih =>
    cases last with
    | declare => simpa using ih
    | fresh => simpa [freshName] using ih
    | label => exact Nat.le_succ_of_le ih

/-- What is known about a variable never changes. -/
theorem Evolves.get? {f g : Frame} (h : Evolves f g) {name : String} {d : Descriptor}
    (hd : f.vars.get? name = some d) : g.vars.get? name = some d := by
  induction h with
  | refl => exact hd
  | @tail g g' _ last ih =>
    cases last with
    | declare other scope type =>
      rw [get?_declare]
      split
      · rename_i same
        subst same
        simp [ih]
      · exact ih
    | fresh type =>
      have fresh := g.freshName_not_contained type
      rw [get?_freshName, if_neg]
      · exact ih
      · rintro rfl
        rw [ih] at fresh
        cases fresh
    | label => exact ih

theorem Evolves.holds {f g : Frame} (h : Evolves f g) {name : String} (hn : f.Holds name) :
    g.Holds name := by
  obtain ⟨d, hd, hs⟩ := hn
  exact ⟨d, h.get? hd, hs⟩

theorem not_holds_freshName (frame : Frame) (type : CodeType) :
    ¬ frame.Holds (frame.freshName type).1 := by
  rintro ⟨d, hd, _⟩
  rw [frame.freshName_not_contained type] at hd
  cases hd

theorem holds_freshName (frame : Frame) (type : CodeType) :
    (frame.freshName type).2.Holds (frame.freshName type).1 :=
  ⟨⟨.localVar, frame.nextRegister, type⟩, by rw [get?_freshName, if_pos rfl], by simp⟩

end Frame
end ClassCompiler
