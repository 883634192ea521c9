import ClassCompiler.Proofs.Syntax.Context

/-! The nodes of a term in the order in which they are made: each after those below it. -/

namespace ClassCompiler.Term
set_option autoImplicit false

mutual

/-- The numbers of the nodes of a term, each after those below it. -/
def postorder : Term → List NodeId
  | node id _ children => postorderAll children ++ [id]

def postorderAll : List Term → List NodeId
  | [] => []
  | term :: terms => term.postorder ++ postorderAll terms

end

theorem postorderAll_eq_flatMap (terms : List Term) :
    postorderAll terms = terms.flatMap postorder := by
  induction terms with
  | nil => rfl
  | cons term terms ih => rw [postorderAll, ih, List.flatMap_cons]

theorem postorder_node (id : NodeId) (label : Label) (children : List Term) :
    (node id label children).postorder = children.flatMap postorder ++ [id] := by
  rw [postorder, postorderAll_eq_flatMap]

theorem perm_postorder (term : Term) : term.postorder.Perm term.ids := by
  induction term using Term.induct with
  | step id label children ih =>
    rw [postorder_node, ids_node]
    exact List.perm_append_comm.trans ((List.Perm.flatMap_left _ ih).cons id)

theorem child_lt_of_pairwise {term t child : Term} (ascending : term.postorder.Pairwise (· < ·))
    (ht : t ∈ term :: term.descendants) (hc : child ∈ t.children) : child.id < t.id := by
  induction term using Term.induct with
  | step id label children ih =>
    rw [postorder_node, List.pairwise_append] at ascending
    obtain ⟨below, -, last⟩ := ascending
    rcases List.mem_cons.mp ht with rfl | ht
    · apply last child.id _ id (List.mem_singleton_self id)
      exact List.mem_flatMap.mpr ⟨child, hc, child.perm_postorder.mem_iff.mpr child.id_mem_ids⟩
    · obtain ⟨other, hother, ht⟩ := exists_child_of_mem_descendants ht
      exact ih other hother ((List.pairwise_flatMap.mp below).1 other hother) ht

end ClassCompiler.Term
