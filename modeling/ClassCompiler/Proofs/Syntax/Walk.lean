import ClassCompiler.Proofs.Syntax.Term
import ClassCompiler.Syntax.Walk

/-! Where a walk comes to: to a term, to its children in the scope that it opens, and to nothing
else. -/

namespace ClassCompiler
set_option autoImplicit false

namespace Walk
variable {a b : Walk}

theorem fault_andThen : (a.andThen b).fault = none ↔ a.fault = none ∧ b.fault = none := by
  unfold andThen
  cases ha : a.fault <;> simp [ha]

theorem visits_andThen (h : a.fault = none) : (a.andThen b).visits = a.visits ++ b.visits := by
  simp [andThen, h]

end Walk

namespace Term
variable {term : Term} {scope : Scope}

theorem walk_of_walkAll {terms : List Term} (h : (walkAll scope terms).fault = none) :
    ∀ t ∈ terms, (t.walk scope).fault = none ∧
      ∀ visit ∈ (t.walk scope).visits, visit ∈ (walkAll scope terms).visits := by
  induction terms with
  | nil => simp
  | cons first terms ih =>
    rw [walkAll, Walk.fault_andThen] at h
    have visits : (walkAll scope (first :: terms)).visits =
        (first.walk scope).visits ++ (walkAll scope terms).visits := by
      rw [walkAll, Walk.visits_andThen h.1]
    rw [visits]
    refine List.forall_mem_cons.mpr ⟨⟨h.1, fun visit => List.mem_append_left _⟩, ?_⟩
    intro t ht
    obtain ⟨ends, inside⟩ := ih h.2 t ht
    exact ⟨ends, fun visit hvisit => List.mem_append_right _ (inside visit hvisit)⟩

theorem walk_children (h : (term.walk scope).fault = none) :
    ∃ inner, innerScope scope term = .ok inner ∧ ⟨term, inner⟩ ∈ (term.walk scope).visits ∧
      ∀ child ∈ term.children, (child.walk inner).fault = none ∧
        ∀ visit ∈ (child.walk inner).visits, visit ∈ (term.walk scope).visits := by
  cases term with
  | node id label children =>
    cases hinner : innerScope scope (.node id label children) with
    | error fault => simp [walk, hinner] at h
    | ok inner =>
      have whole : walk scope (.node id label children) =
          (Walk.mk [⟨.node id label children, inner⟩] none).andThen (walkAll inner children) := by
        simp only [walk, hinner]
      rw [whole, Walk.fault_andThen] at h
      replace h := h.2
      rw [whole, Walk.visits_andThen rfl]
      refine ⟨inner, rfl, List.mem_cons_self, fun child hc => ?_⟩
      obtain ⟨ends, inside⟩ := walk_of_walkAll h child hc
      exact ⟨ends, fun visit hvisit => List.mem_cons_of_mem _ (inside visit hvisit)⟩

theorem mem_visits (h : (term.walk scope).fault = none)
    (plain : ∀ t ∈ term :: term.descendants, t.kind ≠ .methodDecl) :
    ∀ t ∈ term :: term.descendants, ⟨t, scope⟩ ∈ (term.walk scope).visits := by
  induction term using Term.induct with
  | step id label children ih =>
    obtain ⟨inner, hinner, own, below⟩ := walk_children h
    obtain ⟨outside, inside⟩ := forall_mem_node_iff.mp plain
    rw [innerScope, if_neg outside] at hinner
    obtain rfl := Except.ok.inj hinner
    refine forall_mem_node_iff.mpr ⟨own, fun child hc t ht => ?_⟩
    obtain ⟨ends, visited⟩ := below child hc
    exact visited _ (ih child hc ends (inside child hc) t ht)

end Term

theorem Term.walk_outer {term child : Term} {scope : Scope}
    (ends : (term.walk scope).fault = none) (outside : term.kind ≠ .methodDecl)
    (hc : child ∈ term.children) :
    (child.walk scope).fault = none ∧
      ∀ visit ∈ (child.walk scope).visits, visit ∈ (term.walk scope).visits := by
  obtain ⟨inner, hinner, -, below⟩ := walk_children ends
  rw [innerScope, if_neg outside] at hinner
  obtain rfl := Except.ok.inj hinner
  exact below child hc

theorem Term.walk_method {method : Term} {scope : Scope} (hkind : method.kind = .methodDecl)
    (ends : (method.walk scope).fault = none) :
    ∃ context, MethodContext.of method = .ok context ∧
      ⟨method, ⟨some context⟩⟩ ∈ (method.walk scope).visits ∧
      ∀ child ∈ method.children, (child.walk ⟨some context⟩).fault = none ∧
        ∀ visit ∈ (child.walk ⟨some context⟩).visits, visit ∈ (method.walk scope).visits := by
  obtain ⟨inner, hinner, own, below⟩ := walk_children ends
  rw [innerScope, if_pos hkind] at hinner
  cases hcontext : MethodContext.of method with
  | error fault =>
    rw [hcontext] at hinner
    cases hinner
  | ok context =>
    rw [hcontext] at hinner
    obtain rfl : (⟨some context⟩ : Scope) = inner := Except.ok.inj hinner
    exact ⟨context, rfl, own, below⟩

namespace Term
variable {term : Term} {scope : Scope} {visit : Visit}

theorem mem_visits_walkAll {terms : List Term} (h : visit ∈ (walkAll scope terms).visits) :
    ∃ t ∈ terms, visit ∈ (t.walk scope).visits := by
  induction terms with
  | nil => cases h
  | cons first terms ih =>
    rw [walkAll, Walk.andThen] at h
    split at h
    · exact ⟨first, List.mem_cons_self, h⟩
    · rcases List.mem_append.mp h with h | h
      · exact ⟨first, List.mem_cons_self, h⟩
      · obtain ⟨t, ht, h⟩ := ih h
        exact ⟨t, List.mem_cons_of_mem _ ht, h⟩

/-- A visit of a walk is that of the term itself or one of the walk through a child. -/
theorem visit_cases (h : visit ∈ (term.walk scope).visits) :
    ∃ inner, innerScope scope term = .ok inner ∧
      (visit = ⟨term, inner⟩ ∨ ∃ child ∈ term.children, visit ∈ (child.walk inner).visits) := by
  cases term with
  | node id label children =>
    cases hinner : innerScope scope (.node id label children) with
    | error fault => simp [walk, hinner] at h
    | ok inner =>
      simp only [walk, hinner] at h
      rw [Walk.visits_andThen rfl] at h
      refine ⟨inner, rfl, (List.mem_append.mp h).imp List.mem_singleton.mp fun h => ?_⟩
      exact mem_visits_walkAll h

theorem fault_walkAll {terms : List Term} (h : ∀ t ∈ terms, (t.walk scope).fault = none) :
    (walkAll scope terms).fault = none := by
  induction terms with
  | nil => rfl
  | cons first terms ih =>
    rw [walkAll, Walk.fault_andThen]
    exact ⟨h first List.mem_cons_self, ih fun t ht => h t (List.mem_cons_of_mem _ ht)⟩

/-- A walk comes to its end if it may enter the term and comes to its end in all children. -/
theorem fault_walk {inner : Scope} (hinner : innerScope scope term = .ok inner)
    (below : ∀ child ∈ term.children, (child.walk inner).fault = none) :
    (term.walk scope).fault = none := by
  cases term with
  | node id label children =>
    simp only [walk, hinner]
    rw [Walk.fault_andThen]
    exact ⟨rfl, fault_walkAll below⟩

theorem mem_of_visit (h : visit ∈ (term.walk scope).visits) :
    visit.term ∈ term :: term.descendants := by
  induction term using Term.induct generalizing scope with
  | step id label children ih =>
    obtain ⟨inner, -, rfl | ⟨child, hc, h⟩⟩ := visit_cases h
    · exact List.mem_cons_self
    · exact List.mem_cons_of_mem _ (mem_descendants_of_child hc (ih child hc h))

/-- A walk that comes to its end has come to the parent of each term to which it comes below the
first one. -/
theorem exists_parent_visit (ends : (term.walk scope).fault = none)
    (h : visit ∈ (term.walk scope).visits) :
    (visit.term = term ∧ innerScope scope term = .ok visit.scope) ∨
      ∃ outer ∈ (term.walk scope).visits, visit.term ∈ outer.term.children ∧
        innerScope outer.scope visit.term = .ok visit.scope := by
  induction term using Term.induct generalizing scope with
  | step id label children ih =>
    obtain ⟨inner, hinner, own, below⟩ := walk_children ends
    obtain ⟨_, hinner', rfl | ⟨child, hc, h⟩⟩ := visit_cases h
    · exact .inl ⟨rfl, hinner'⟩
    obtain rfl := Except.ok.inj (hinner.symm.trans hinner')
    obtain ⟨childEnds, inside⟩ := below child hc
    rcases ih child hc childEnds h with ⟨rfl, entered⟩ | ⟨outer, houter, parent⟩
    · exact .inr ⟨_, own, hc, entered⟩
    · exact .inr ⟨outer, inside _ houter, parent⟩

/-- A walk that comes to its end comes to the children of each term to which it comes. -/
theorem exists_child_visit {child : Term} (ends : (term.walk scope).fault = none)
    (h : visit ∈ (term.walk scope).visits) (hc : child ∈ visit.term.children) :
    ∃ inner, innerScope visit.scope child = .ok inner ∧
      ⟨child, inner⟩ ∈ (term.walk scope).visits := by
  induction term using Term.induct generalizing scope with
  | step id label children ih =>
    obtain ⟨inner, hinner, own, below⟩ := walk_children ends
    obtain ⟨inner', hinner', rfl | ⟨first, hfirst, h⟩⟩ := visit_cases h
    · obtain rfl := Except.ok.inj (hinner.symm.trans hinner')
      obtain ⟨childEnds, inside⟩ := below child hc
      obtain ⟨innermost, hinnermost, reached, -⟩ := walk_children childEnds
      exact ⟨innermost, hinnermost, inside _ reached⟩
    · obtain rfl := Except.ok.inj (hinner.symm.trans hinner')
      obtain ⟨firstEnds, inside⟩ := below first hfirst
      obtain ⟨innermost, hinnermost, reached⟩ := ih first hfirst firstEnds h
      exact ⟨innermost, hinnermost, inside _ reached⟩

end Term
end ClassCompiler
