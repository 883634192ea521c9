import ClassCompiler.Proofs.Review.Passing
import Mathlib.Data.List.Forall2

/-! What a computation that succeeds adds to the reports, said of its parts one after another. -/

namespace ClassCompiler.Review
set_option autoImplicit false

open List (Forall₂)

variable {α β : Type}

def Adds (m : Review α) (P : List Report → Prop) : Prop :=
  ∀ before a after, Runs m before a after → ∃ added, after = before ++ added ∧ P added

namespace Adds
variable {m : Review α} {k : α → Review β} {P Q R : List Report → Prop}

theorem mono (h : Adds m P) (weaker : ∀ added, P added → Q added) : Adds m Q := by
  intro before a after run
  obtain ⟨added, rfl, holds⟩ := h before a after run
  exact ⟨added, rfl, weaker added holds⟩

theorem pure (a : α) (h : P []) : Adds (pure a : Review α) P := by
  intro before b after run
  obtain ⟨-, rfl⟩ := runs_pure.mp run
  exact ⟨[], (List.append_nil before).symm, h⟩

theorem report {term : Term} {finding : Finding}
    (h : P [.semanticError term.location finding.message]) : Adds (report term finding) P := by
  intro before u after run
  exact ⟨_, (runs_modify.mp run).symm, h⟩

theorem bind (first : Adds m P) (rest : ∀ a, Adds (k a) Q)
    (both : ∀ x y, P x → Q y → R (x ++ y)) : Adds (m >>= k) R := by
  intro before b after run
  obtain ⟨a, between, one, other⟩ := runs_bind.mp run
  obtain ⟨x, rfl, hx⟩ := first before a between one
  obtain ⟨y, rfl, hy⟩ := rest a _ b after other
  exact ⟨x ++ y, List.append_assoc _ _ _, both x y hx hy⟩

theorem require_bind {value : Except Fault α} (rest : ∀ a, value = .ok a → Adds (k a) P) :
    Adds (require value >>= k) P := by
  intro before b after run
  obtain ⟨a, same, run⟩ := runs_require_bind.mp run
  exact rest a same before b after run

theorem forM {f : α → Review PUnit} {P : α → List Report → Prop} {xs : List α}
    (each : ∀ x ∈ xs, Adds (f x) (P x)) :
    Adds (xs.forM f) fun added => ∃ parts, Forall₂ P xs parts ∧ added = parts.flatten := by
  induction xs with
  | nil => exact .pure _ ⟨[], .nil, rfl⟩
  | cons x xs ih =>
    obtain ⟨own, others⟩ := List.forall_mem_cons.mp each
    apply own.bind fun _ => ih others
    rintro added _ holds ⟨parts, related, rfl⟩
    exact ⟨added :: parts, .cons holds related, rfl⟩

theorem of_passes {a : α} (h : Adds m P) (passes : Passes m a) : P [] := by
  obtain ⟨added, same, holds⟩ := h [] a [] passes
  obtain rfl : [] = added := same
  exact holds

end Adds

/-- A loop whose rounds all go on does in turn what its rounds do. -/
theorem loop_eq_forM {f : α → PUnit → Review (ForInStep PUnit)} {g : α → Review PUnit}
    (same : ∀ x, f x ⟨⟩ = do
      g x
      pure (.yield ⟨⟩)) (xs : List α) :
    (do
      forIn xs PUnit.unit f
      pure ()) = xs.forM g := by
  induction xs with
  | nil => rfl
  | cons x xs ih =>
    rw [List.forIn_cons, same, bind_assoc, bind_assoc]
    simp only [pure_bind]
    exact congrArg (g x >>= ·) (funext fun _ => ih)

theorem forM_congr {f g : α → Review PUnit} {xs : List α} (same : ∀ x ∈ xs, f x = g x) :
    xs.forM f = xs.forM g := by
  induction xs with
  | nil => rfl
  | cons x xs ih =>
    obtain ⟨own, others⟩ := List.forall_mem_cons.mp same
    change (f x >>= fun _ => xs.forM f) = (g x >>= fun _ => xs.forM g)
    rw [own, ih others]

/-- A computation that succeeds adds no report exactly when a condition holds. -/
def SilentIff (m : Review α) (S : Prop) : Prop := Adds m fun added => added = [] ↔ S

namespace SilentIff
variable {m : Review α} {k : α → Review β} {S T : Prop}

theorem of_iff (h : SilentIff m S) (same : S ↔ T) : SilentIff m T :=
  h.mono fun _ iff => iff.trans same

theorem pure (a : α) : SilentIff (pure a : Review α) True := Adds.pure a (by simp)

theorem report (term : Term) (finding : Finding) : SilentIff (report term finding) False :=
  Adds.report (by simp)

theorem bind (first : SilentIff m S) (rest : ∀ a, SilentIff (k a) T) :
    SilentIff (m >>= k) (S ∧ T) := by
  apply Adds.bind first rest
  intro x y hx hy
  rw [List.append_eq_nil_iff, hx, hy]

theorem require_bind {value : Except Fault α} (rest : ∀ a, value = .ok a → SilentIff (k a) S) :
    SilentIff (require value >>= k) S := Adds.require_bind rest

theorem forM {f : α → Review PUnit} {S : α → Prop} {xs : List α}
    (each : ∀ x ∈ xs, SilentIff (f x) (S x)) : SilentIff (xs.forM f) (∀ x ∈ xs, S x) := by
  apply (Adds.forM each).mono
  rintro _ ⟨parts, related, rfl⟩
  induction related with
  | nil => simp
  | cons head _ ih =>
    rw [List.flatten_cons, List.append_eq_nil_iff, List.forall_mem_cons, head,
      ih fun x hx => each x (List.mem_cons_of_mem _ hx)]

theorem of_passes {a : α} (h : SilentIff m S) (passes : Passes m a) : S :=
  (Adds.of_passes h passes).mp rfl

theorem iff_of_runs (h : SilentIff m S) {before after : List Report} {a : α}
    (run : Runs m before a after) : after = before ↔ S := by
  obtain ⟨added, rfl, silent⟩ := h before a after run
  simpa using silent

end SilentIff
end ClassCompiler.Review
