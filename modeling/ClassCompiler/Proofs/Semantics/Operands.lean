import ClassCompiler.Proofs.Runs
import ClassCompiler.Proofs.Semantics.Machine

/-! Two ways to keep the variables of a method that agree on what an instruction reads. Where
some of the variables may still be without a value in the first of them, the instruction does
the same with both, or fails with the first because it reads such a variable. -/

namespace ClassCompiler
set_option autoImplicit false

/-- A computation has the result of another, or fails because it reads one of some variables
that has no value. -/
def SameOrUnset {α : Type} (loose : String → Prop) (x y : Except Trap α) : Prop :=
  x = y ∨ ∃ name, loose name ∧ x = .error (.unset name)

namespace SameOrUnset
variable {α β : Type} {loose : String → Prop} {x y : Except Trap α}

theorem rfl : SameOrUnset loose x x := .inl (Eq.refl x)

theorem bind {f g : α → Except Trap β} (h : SameOrUnset loose x y)
    (next : ∀ a, SameOrUnset loose (f a) (g a)) : SameOrUnset loose (x >>= f) (y >>= g) := by
  rcases h with same | ⟨name, unset, failed⟩
  · subst same
    cases x with
    | error trap => exact .inl (Eq.refl _)
    | ok a => exact next a
  · refine .inr ⟨name, unset, ?_⟩
    rw [failed]
    exact Eq.refl _

theorem map {f : α → β} (h : SameOrUnset loose x y) : SameOrUnset loose (f <$> x) (f <$> y) :=
  h.bind fun _ => rfl

theorem mapM {γ : Type} {f g : γ → Except Trap α} {list : List γ}
    (each : ∀ c ∈ list, SameOrUnset loose (f c) (g c)) :
    SameOrUnset loose (list.mapM f) (list.mapM g) := by
  induction list with
  | nil => exact rfl
  | cons c list ih =>
    obtain ⟨first, others⟩ := List.forall_mem_cons.mp each
    simp only [List.mapM_cons]
    exact first.bind fun a => (ih others).bind fun as => rfl

end SameOrUnset

namespace Operands

/-- Operands that agree on some names and on the object at work, but for variables that have no
value in the first. -/
structure Agree (loose : String → Prop) (names : List String) (a b : Operands) : Prop where
  self : a.self = b.self
  look : ∀ name ∈ names, a.look name = b.look name ∨ a.look name = none ∧ loose name

variable {loose : String → Prop} {names more : List String} {a b : Operands}

theorem Agree.subset (h : Agree loose names a b) (inside : more ⊆ names) : Agree loose more a b :=
  ⟨h.self, fun name hname => h.look name (inside hname)⟩

theorem Agree.left (h : Agree loose (names ++ more) a b) : Agree loose names a b :=
  h.subset (List.subset_append_left names more)

theorem Agree.right (h : Agree loose (names ++ more) a b) : Agree loose more a b :=
  h.subset (List.subset_append_right names more)

theorem Agree.read (h : Agree loose names a b) {name : String} (hname : name ∈ names) :
    SameOrUnset loose (a.read name) (b.read name) := by
  rcases h.look name hname with same | ⟨unset, isLoose⟩
  · refine .inl ?_
    rw [Operands.read, Operands.read, same]
  · refine .inr ⟨name, isLoose, ?_⟩
    rw [Operands.read, unset]

theorem Agree.readSelf (h : Agree loose names a b) : a.readSelf = b.readSelf := by
  rw [Operands.readSelf, Operands.readSelf, h.self]

end Operands

section
open Operands
variable {loose : String → Prop} {a b : Operands} {memory : Memory} {world : World}
  {oracle : Oracle}

theorem Element.eval_agree {e : Element} (h : Agree loose e.names a b) :
    SameOrUnset loose (e.eval a memory) (e.eval b memory) := by
  induction e with
  | literal text type => exact .rfl
  | operand name type => exact h.read List.mem_cons_self
  | arrayOperand name index type ih =>
    refine (h.read List.mem_cons_self).bind fun array => ?_
    exact (ih (h.subset (List.subset_cons_self _ _))).bind fun index => .rfl
  | self type => exact .inl h.readSelf

theorem Invocation.eval_agree {invocation : Invocation} (h : Agree loose invocation.names a b) :
    SameOrUnset loose (invocation.eval a memory) (invocation.eval b memory) := by
  cases invocation with
  | static name => exact .rfl
  | virtual target => exact (Element.eval_agree h).bind fun value => .rfl
  | special target => exact (Element.eval_agree h).map

theorem Call.eval_agree {made : Call} (h : Agree loose made.names a b) :
    SameOrUnset loose (made.eval a memory) (made.eval b memory) := by
  refine (Invocation.eval_agree h.left).bind fun receiver => ?_
  refine SameOrUnset.bind (.mapM fun e he => ?_) fun args => .rfl
  exact Element.eval_agree (h.right.subset (fun _ => List.mem_flatMap_of_mem he))

theorem Operands.owner_agree {object : Element} (h : Agree loose object.names a b) :
    SameOrUnset loose (a.owner memory object) (b.owner memory object) := by
  refine (Element.eval_agree h).bind fun found => ?_
  rw [h.self]
  exact .rfl

theorem Rhs.eval_agree {rhs : Rhs} (h : Agree loose rhs.names a b) :
    SameOrUnset loose (rhs.eval oracle a world) (rhs.eval oracle b world) := by
  cases rhs with
  | single element => exact (Element.eval_agree h).bind fun value => .rfl
  | binary op lhs rhs type =>
    refine (Element.eval_agree h.left).bind fun left => ?_
    exact (Element.eval_agree h.right).bind fun right => .rfl
  | unary op operand type => exact (Element.eval_agree h).bind fun value => .rfl
  | call made => exact (Call.eval_agree h).bind fun invoked => .rfl
  | getField object field type => exact (owner_agree h).bind fun _ => .rfl
  | arrayLength array => exact (Element.eval_agree h).bind fun value => .rfl
  | newObject name => exact .rfl
  | newArray size type => exact (Element.eval_agree h).bind fun size => .rfl

/-- An instruction does the same where its operands agree. -/
theorem Instruction.effect_agree {i : Instruction} (h : Agree loose i.uses a b) :
    SameOrUnset loose (i.effect oracle a world) (i.effect oracle b world) := by
  cases i with
  | assign dest rhs =>
    cases dest with
    | operand name type => exact (Rhs.eval_agree h).bind fun result => .rfl
    | arrayOperand name index type =>
      refine (h.read List.mem_cons_self).bind fun array => ?_
      have inner := h.subset (List.subset_cons_self _ _)
      refine (Element.eval_agree inner.left).bind fun index => ?_
      exact (Rhs.eval_agree inner.right).bind fun result => .rfl
    | literal text type => exact .rfl
    | self type => exact .rfl
  | call made => exact (Call.eval_agree h).bind fun invoked => .rfl
  | putField object field value =>
    refine (owner_agree h.left).bind fun _ => ?_
    exact (Element.eval_agree h.right).bind fun value => .rfl
  | goto target => exact .rfl
  | branch condition target => exact (Rhs.eval_agree h).bind fun result => .rfl
  | label name => exact .rfl
  | ret value =>
    cases value with
    | none => exact .rfl
    | some value => exact (Element.eval_agree h).bind fun result => .rfl

end

def Jump.target? (code : List Instruction) (index : Nat) : Jump → Option Nat
  | .next => some (index + 1)
  | .to label => Flow.labelIndex? code label
  | .out _ => none

/-- What an instruction is said to do: which variable it writes, and where control may go. -/
structure Effect.Follows (effect : Effect) (i : Instruction) (code : List Instruction)
    (index : Nat) : Prop where
  write : effect.write.map Prod.fst = i.def?
  target : ∀ target < code.length, effect.jump.target? code index = some target →
    target ∈ Flow.successorsOf code index i

section
variable {effect : Effect} {code : List Instruction} {index : Nat}

theorem Effect.follows_next {i : Instruction} {write : Option (String × Datum)} {world : World}
    (written : write.map Prod.fst = i.def?)
    (falls : ∀ next, Flow.next? code index = some next → next ∈ Flow.successorsOf code index i) :
    Effect.Follows { write, world } i code index := by
  refine ⟨written, ?_⟩
  rintro target inside ⟨⟩
  exact falls (index + 1) (if_pos inside)

/-- An instruction writes the variable that it is said to write, and control goes where it may
go. -/
theorem Instruction.follows_of_effect {i : Instruction} {oracle : Oracle} {operands : Operands}
    {world : World} (h : i.effect oracle operands world = .ok effect) :
    effect.Follows i code index := by
  have falls : ∀ next, Flow.next? code index = some next →
      next ∈ (Flow.next? code index).toList := fun next hnext => Option.mem_toList.mpr hnext
  cases i with
  | assign dest rhs =>
    cases dest with
    | operand name type =>
      simp only [Instruction.effect, except_bind_eq_ok] at h
      obtain ⟨⟨value, world'⟩, _, ⟨⟩⟩ := h
      exact Effect.follows_next rfl falls
    | arrayOperand name position type =>
      simp only [Instruction.effect, except_bind_eq_ok] at h
      obtain ⟨_, _, _, _, _, _, _, _, ⟨⟩⟩ := h
      exact Effect.follows_next rfl falls
    | literal text type => cases h
    | self type => cases h
  | call made =>
    simp only [Instruction.effect, except_bind_eq_ok] at h
    obtain ⟨_, _, ⟨⟩⟩ := h
    exact Effect.follows_next rfl falls
  | putField object field value =>
    simp only [Instruction.effect, except_bind_eq_ok] at h
    obtain ⟨_, _, _, _, ⟨⟩⟩ := h
    exact Effect.follows_next rfl falls
  | goto target =>
    cases h
    exact ⟨rfl, fun place _ hplace => Option.mem_toList.mpr hplace⟩
  | branch condition target =>
    simp only [Instruction.effect, except_bind_eq_ok] at h
    obtain ⟨⟨value, world'⟩, _, h⟩ := h
    split at h <;> cases h
    · refine ⟨rfl, fun place _ hplace => ?_⟩
      exact List.mem_append_left _ (Option.mem_toList.mpr hplace)
    · refine Effect.follows_next rfl fun next hnext => ?_
      by_cases jumps : next ∈ (Flow.labelIndex? code target).toList
      · exact List.mem_append_left _ jumps
      · refine List.mem_append_right _ (List.mem_filter.mpr ⟨falls next hnext, ?_⟩)
        simpa using jumps
  | label name =>
    cases h
    exact Effect.follows_next rfl falls
  | ret value =>
    have returns : ∃ world' result, effect = { world := world', jump := .out result } := by
      cases value with
      | none => exact ⟨_, _, (Except.ok.inj h).symm⟩
      | some value =>
        simp only [Instruction.effect, except_bind_eq_ok] at h
        obtain ⟨_, _, ⟨⟩⟩ := h
        exact ⟨_, _, rfl⟩
    obtain ⟨_, _, rfl⟩ := returns
    exact ⟨rfl, fun _ _ goes => nomatch goes⟩

end
end ClassCompiler
