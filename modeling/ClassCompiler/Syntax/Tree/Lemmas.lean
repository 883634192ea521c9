import ClassCompiler.Syntax.Tree

/-! What each operation on a tree does to the nodes under their numbers. -/

namespace ClassCompiler.Tree
set_option autoImplicit false

@[simp] theorem size_add (tree : Tree) (node : Node) : (tree.add node).1.size = tree.size + 1 := by
  simp [add, size]

@[simp] theorem root_add (tree : Tree) (node : Node) : (tree.add node).1.root = tree.root := rfl

@[simp] theorem id_add (tree : Tree) (node : Node) : (tree.add node).2 = tree.size := rfl

theorem node_add (tree : Tree) (node : Node) (id : NodeId) :
    (tree.add node).1.node id = if id = tree.size then node else tree.node id := by
  simp only [add, Tree.node, size, Array.getD_eq_getD_getElem?, Array.getElem?_push]
  split <;> simp

@[simp] theorem size_modify (tree : Tree) (id : NodeId) (change : Node → Node) :
    (tree.modify id change).size = tree.size := by
  simp [modify, size]

@[simp] theorem root_modify (tree : Tree) (id : NodeId) (change : Node → Node) :
    (tree.modify id change).root = tree.root := rfl

theorem node_modify (tree : Tree) (id : NodeId) (change : Node → Node) (inside : id < tree.size)
    (other : NodeId) :
    (tree.modify id change).node other =
      if other = id then change (tree.node id) else tree.node other := by
  have inside : id < tree.nodes.size := inside
  simp only [modify, Tree.node, Array.getD_eq_getD_getElem?, Array.getElem?_modify]
  by_cases same : other = id
  · subst same
    simp [inside]
  · simp [same, Ne.symm same]

@[simp] theorem size_pushChild (tree : Tree) (parent child : NodeId) :
    (tree.pushChild parent child).size = tree.size := by
  simp [pushChild]

@[simp] theorem root_pushChild (tree : Tree) (parent child : NodeId) :
    (tree.pushChild parent child).root = tree.root := rfl

theorem replace_eq_ok {tree replaced : Tree} {old new : NodeId}
    (h : tree.replace old new = .ok replaced) :
    ∃ parent slot, tree.parent? old = some parent ∧ tree.indexInParent? old = some slot ∧
      replaced = ((tree.modify parent fun node =>
          { node with children := node.children.set slot new }).modify new fun node =>
          { node with parent := some parent }).modify old fun node =>
          { node with parent := none } := by
  unfold replace at h
  split at h
  · rename_i parent slot hparent hslot
    exact ⟨parent, slot, hparent, hslot, (Except.ok.inj h).symm⟩
  · simp at h

theorem size_replace {tree replaced : Tree} {old new : NodeId}
    (h : tree.replace old new = .ok replaced) : replaced.size = tree.size := by
  obtain ⟨parent, slot, _, _, rfl⟩ := replace_eq_ok h
  simp

/-- A node is refused as one to be replaced exactly when its parent does not list it. -/
theorem replace_eq_error_iff {tree : Tree} {old new : NodeId} {fault : Fault} :
    tree.replace old new = .error fault ↔
      tree.indexInParent? old = none ∧ fault = .detached old := by
  have parentless : tree.parent? old = none → tree.indexInParent? old = none := fun h => by
    simp [indexInParent?, h]
  unfold replace
  split
  · rename_i parent slot hparent hslot
    simp [hslot]
  · rename_i absent
    have none : tree.indexInParent? old = none := by
      cases hslot : tree.indexInParent? old with
      | none => rfl
      | some slot =>
        cases hparent : tree.parent? old with
        | none => simp [parentless hparent] at hslot
        | some parent => exact absurd hslot (absent parent slot hparent)
    simp [none, eq_comm]

end ClassCompiler.Tree
