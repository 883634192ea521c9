import ClassCompiler.Syntax.Term.Lemmas

/-! Induction over terms, and the attributes and children that a term has. -/

namespace ClassCompiler.Term
set_option autoImplicit false

/-- What holds of a term whenever it holds of its children holds of every term. -/
theorem induct {P : Term → Prop}
    (step : ∀ id label children, (∀ child ∈ children, P child) → P (.node id label children))
    (term : Term) : P term :=
  @Term.rec P (fun terms => ∀ child ∈ terms, P child)
    (fun id label children ih => step id label children ih) (by simp)
    (fun head tail hhead htail child hc => by
      rcases List.mem_cons.mp hc with rfl | hc
      · exact hhead
      · exact htail child hc) term

theorem forall_mem_node_iff {P : Term → Prop} {id : NodeId} {label : Label}
    {children : List Term} :
    (∀ t ∈ node id label children :: (node id label children).descendants, P t) ↔
      P (node id label children) ∧ ∀ child ∈ children, ∀ t ∈ child :: child.descendants, P t := by
  rw [List.forall_mem_cons, descendants_eq_flatMap, List.forall_mem_flatMap]
  rfl

theorem mem_descendants_of_child {term child : Term} (hc : child ∈ term.children) {t : Term}
    (ht : t ∈ child :: child.descendants) : t ∈ term.descendants := by
  rw [descendants_eq_flatMap]
  exact List.mem_flatMap.mpr ⟨child, hc, ht⟩

theorem exists_child_of_mem_descendants {term t : Term} (ht : t ∈ term.descendants) :
    ∃ child ∈ term.children, t ∈ child :: child.descendants := by
  rw [descendants_eq_flatMap] at ht
  exact List.mem_flatMap.mp ht

theorem exists_parent_of_mem_descendants {term t : Term} (h : t ∈ term.descendants) :
    ∃ parent ∈ term :: term.descendants, t ∈ parent.children := by
  induction term using Term.induct with
  | step id label children ih =>
    obtain ⟨child, hc, h⟩ := exists_child_of_mem_descendants h
    rcases List.mem_cons.mp h with rfl | h
    · exact ⟨_, List.mem_cons_self, hc⟩
    · obtain ⟨parent, hparent, ht⟩ := ih child hc h
      exact ⟨parent, List.mem_cons_of_mem _ (mem_descendants_of_child hc hparent), ht⟩

theorem mem_descendants_trans {term below t : Term} (hbelow : below ∈ term :: term.descendants)
    (ht : t ∈ below :: below.descendants) : t ∈ term :: term.descendants := by
  induction term using Term.induct with
  | step id label children ih =>
    rcases List.mem_cons.mp hbelow with rfl | hbelow
    · exact ht
    · rw [descendants_eq_flatMap] at hbelow
      obtain ⟨child, hc, hbelow⟩ := List.mem_flatMap.mp hbelow
      exact List.mem_cons_of_mem _ (mem_descendants_of_child hc (ih child hc hbelow))

theorem mem_descendants_of_below {term below t : Term} (hbelow : below ∈ term :: term.descendants)
    (ht : t ∈ below.descendants) : t ∈ term.descendants := by
  rcases List.mem_cons.mp hbelow with rfl | hbelow
  · exact ht
  · rw [descendants_eq_flatMap] at hbelow
    obtain ⟨child, hc, hbelow⟩ := List.mem_flatMap.mp hbelow
    exact mem_descendants_of_child hc (mem_descendants_trans hbelow (List.mem_cons_of_mem _ ht))

theorem requireAttr_eq_ok {term : Term} {key value : String} :
    term.requireAttr key = .ok value ↔ term.attr? key = some value := by
  unfold requireAttr
  cases term.attr? key <;> simp

theorem child_eq_ok {term child : Term} {index : Nat} :
    term.child index = .ok child ↔ term.children[index]? = some child := by
  unfold Term.child
  cases term.children[index]? <;> simp

end ClassCompiler.Term
