import ClassCompiler.Syntax.Term

/-! The order of the terms below a term, by recursion on the term: each child is followed
by what is below it. -/

namespace ClassCompiler.Term
set_option autoImplicit false

theorem unroll_append (a b : List Term) : unroll (a ++ b) = unroll a ++ unroll b := by
  induction a using unroll.induct with
  | case1 => simp [unroll]
  | case2 id label children pending ih =>
    simp only [List.cons_append, unroll]
    rw [← List.append_assoc, ih]

theorem unroll_cons (term : Term) (terms : List Term) :
    unroll (term :: terms) = term :: (term.descendants ++ unroll terms) := by
  cases term with
  | node id label below => simp [unroll, descendants, children, unroll_append]

theorem unroll_eq_flatMap (terms : List Term) :
    unroll terms = terms.flatMap fun term => term :: term.descendants := by
  induction terms with
  | nil => simp [unroll]
  | cons term terms ih => simp [unroll_cons, ih]

theorem descendants_eq_flatMap (term : Term) :
    term.descendants = term.children.flatMap fun child => child :: child.descendants :=
  unroll_eq_flatMap term.children

theorem length_unroll (terms : List Term) : (unroll terms).length = sizeAll terms := by
  induction terms using unroll.induct with
  | case1 => simp [unroll, sizeAll]
  | case2 id label children pending ih =>
    simp [unroll, sizeAll, size, ih, sizeAll_append]
    omega

theorem size_eq_length_descendants (term : Term) : term.size = term.descendants.length + 1 := by
  cases term with
  | node id label below => simp [descendants, children, length_unroll, size]

end ClassCompiler.Term
