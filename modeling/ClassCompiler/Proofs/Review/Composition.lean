import ClassCompiler.Proofs.Review.Passing
import ClassCompiler.Syntax.Draft

/-! How checks compose. They add to one list of reports, but what a check adds does not depend on
what is there before. So a review is made of what each check reports on its own, and whether it
finds an error is the same in every order of the checks. -/

namespace ClassCompiler
set_option autoImplicit false

open Review

/-- The reports after checks that add to one list, one after another. A check that ends with a
fault adds one error without a place; any other check that adds an error is the last. -/
def reviewOnto (subject : Subject) : List Check → List Report → List Report
  | [], before => before
  | check :: checks, before =>
    match outcome (check.run subject) before with
    | (.error fault, after) =>
      reviewOnto subject checks
        (after ++ [.unlocated .semantic (Finding.checkFault check.name fault).message])
    | (.ok _, after) =>
      if hasErrors (after.drop before.length) then after else reviewOnto subject checks after

namespace Check

/-- What a check brings to a review: what it reports on its own and, if it ends with a fault,
one error without a place that names it. -/
def contribution (check : Check) (subject : Subject) : List Report :=
  match check.outcome subject with
  | (reports, none) => reports
  | (reports, some fault) =>
    reports ++ [.unlocated .semantic (Finding.checkFault check.name fault).message]

/-- Whether a check ends a review: it reports an error and does not end with a fault. -/
def halts (check : Check) (subject : Subject) : Bool :=
  match check.outcome subject with
  | (reports, none) => hasErrors reports
  | (_, some _) => false

theorem outcome_of_adds {check : Check} {subject : Subject} {result : Except Fault Unit}
    {added : List Report}
    (h : ∀ before, ClassCompiler.outcome (check.run subject) before = (result, before ++ added)) :
    check.outcome subject =
      (added, match result with
        | .ok _ => none
        | .error fault => some fault) := by
  unfold Check.outcome
  rw [show (check.run subject).run.run [] = _ from h []]
  cases result <;> rfl

end Check

section
variable {subject : Subject} {checks : List Check}

theorem hasErrors_append (a b : List Report) :
    hasErrors (a ++ b) = (hasErrors a || hasErrors b) := List.any_append

theorem review_cons (check : Check) : review subject (check :: checks) =
    check.contribution subject ++ if check.halts subject then [] else review subject checks := by
  rw [review, Check.contribution, Check.halts]
  rcases check.outcome subject with ⟨reports, _ | fault⟩
  · dsimp only
    split <;> simp
  · simp

/-- A review is what its checks bring to it, up to the first that ends it. -/
theorem review_eq_flatMap (checks : List Check) : review subject checks =
    (checks.take (checks.findIdx (Check.halts · subject) + 1)).flatMap
      (Check.contribution · subject) := by
  induction checks with
  | nil => rfl
  | cons check checks ih =>
    rw [review_cons, List.findIdx_cons]
    cases check.halts subject with
    | true => simp
    | false => simp [ih]

theorem hasErrors_contribution_of_halts {check : Check} (h : check.halts subject = true) :
    hasErrors (check.contribution subject) = true := by
  unfold Check.halts at h
  unfold Check.contribution
  split <;> simp_all

/-- A review finds an error when one of its checks brings one, reached or not: a check is passed
over only after another one has found an error. -/
theorem hasErrors_review (checks : List Check) : hasErrors (review subject checks) =
    checks.any fun check => hasErrors (check.contribution subject) := by
  induction checks with
  | nil => rfl
  | cons check checks ih =>
    rw [review_cons, hasErrors_append, List.any_cons]
    cases halts : check.halts subject with
    | true => rw [hasErrors_contribution_of_halts halts, Bool.true_or, Bool.true_or]
    | false => rw [if_neg Bool.false_ne_true, ih]

/-- What checks add to a list is what they report on their own. -/
theorem reviewOnto_eq_append (adds : ∀ check ∈ checks, AddsErrors (check.run subject))
    (before : List Report) : reviewOnto subject checks before = before ++ review subject checks := by
  induction checks generalizing before with
  | nil => exact (List.append_nil before).symm
  | cons check checks ih =>
    obtain ⟨result, added, run, -⟩ := adds check List.mem_cons_self
    have rest := ih fun other hother => adds other (List.mem_cons_of_mem _ hother)
    have alone := Check.outcome_of_adds run
    rw [reviewOnto, run before]
    cases result with
    | error fault => simp [review, alone, rest]
    | ok _ =>
      simp only [review, alone, List.drop_left, rest]
      split <;> simp

end

/-- Checks that add to one list add what they report each on its own, in order, up to the first
that ends the review; and in every order the standard checks come to the same verdict. -/
theorem review_composes (subject : Subject) {checks : List Check}
    (standard : ∀ check ∈ checks, check ∈ standardChecks) :
    (∀ before, reviewOnto subject checks before = before ++ review subject checks) ∧
    review subject checks =
      (checks.take (checks.findIdx (Check.halts · subject) + 1)).flatMap
        (Check.contribution · subject) ∧
    ∀ order, order.Perm standardChecks →
      hasErrors (review subject order) = hasErrors (review subject standardChecks) := by
  refine ⟨reviewOnto_eq_append fun check hc => addsErrors_of_mem (standard check hc) subject,
    review_eq_flatMap checks, ?_⟩
  intro order same
  rw [hasErrors_review, hasErrors_review]
  exact same.any_eq

section Conditionless
open Draft

/-- A class with a method that has a loop without a condition and a variable that is not
declared. -/
def conditionless : Construction NodeId := do
  let loop ← atLine .whileLoop 3 [] []
  let use ← exprStmt (← identifier "x" 4) 4
  classDecl "A" none [← method "f" .void [] [loop, use] false 2] 1

def conditionlessSubject : Subject where
  tree := (conditionless.run {}).2.finish (conditionless.run {}).1
  table :=
    { className := "A", superName := "", imports := [], fields := [], methods := ["f"],
      signatures := [("f", ⟨.void, [], [], false⟩)] }

/-- The fault of the loop does not end the review, and the variable does. -/
theorem review_composes_conditionless :
    (∀ check ∈ [conditions, undeclaredVariables, operatorTypes], check ∈ standardChecks) ∧
    reviewOnto conditionlessSubject [conditions, undeclaredVariables, operatorTypes] [] =
      [.unlocated .semantic
        "pass 'conditions' failed unexpectedly: node #0 (While) has no child at index 0",
       .semanticError ⟨4, 1⟩ "variable 'x' is not declared"] ∧
    hasErrors (review conditionlessSubject standardChecks.reverse) =
      hasErrors (review conditionlessSubject standardChecks) := by
  have standard : ∀ check ∈ [conditions, undeclaredVariables, operatorTypes],
      check ∈ standardChecks := by
    simp only [List.forall_mem_cons]
    refine ⟨?_, ?_, ?_, by simp⟩ <;> simp [standardChecks]
  obtain ⟨onto, -, verdict⟩ := review_composes conditionlessSubject standard
  refine ⟨standard, ?_, verdict _ (List.reverse_perm _)⟩
  rw [onto, List.nil_append]
  decide +kernel

end Conditionless
end ClassCompiler
