import ClassCompiler.Proofs.Optimization.Folding

/-! Simplifications add nodes to a tree and link them anew, but leave the labels of the nodes that
there are. -/

namespace ClassCompiler
set_option autoImplicit false

/-- A tree after another one: the nodes of that one have the labels that they had. -/
structure Tree.Extends (tree tree' : Tree) : Prop where
  size : tree.size ≤ tree'.size
  label : ∀ id < tree.size, (tree'.node id).label = (tree.node id).label

namespace Tree
variable {a b c tree after : Tree}

theorem Extends.refl (tree : Tree) : tree.Extends tree := ⟨Nat.le_refl _, fun _ _ => rfl⟩

theorem Extends.trans (h : a.Extends b) (h' : b.Extends c) : a.Extends c where
  size := Nat.le_trans h.size h'.size
  label id inside := (h'.label id (Nat.lt_of_lt_of_le inside h.size)).trans (h.label id inside)

theorem extends_add (tree : Tree) (node : Node) : tree.Extends (tree.add node).1 where
  size := by simp
  label id inside := by rw [node_add, if_neg (Nat.ne_of_lt inside)]

theorem extends_modify (tree : Tree) (id : NodeId) (change : Node → Node)
    (keeps : ∀ node, (change node).label = node.label) : tree.Extends (tree.modify id change) where
  size := by simp
  label other inside := by
    have inside : other < tree.nodes.size := inside
    simp only [modify, Tree.node, Array.getD_eq_getD_getElem?, Array.getElem?_modify,
      Array.getElem?_eq_getElem inside]
    split <;> simp [keeps]

theorem extends_replace {old new : NodeId} (h : tree.replace old new = .ok after) :
    tree.Extends after := by
  obtain ⟨parent, slot, -, -, rfl⟩ := replace_eq_ok h
  refine .trans (extends_modify tree parent _ fun _ => ?_)
    (.trans (extends_modify _ new _ fun _ => ?_) (extends_modify _ old _ fun _ => ?_))
  all_goals rfl

/-- A literal that is put into the place of a node is a new node. -/
theorem extends_putLiteral {old : NodeId} {literal : Known} {result : Except Fault NodeId}
    (h : tree.putLiteral old literal = (result, after)) : tree.Extends after := by
  simp only [putLiteral] at h
  split at h
  · rename_i replaced
    cases h
    exact (extends_add tree _).trans (extends_replace replaced)
  · cases h
    exact extends_add tree _

end Tree

namespace Propagation
variable {α β : Type}

def Keeps (step : Step α) : Prop := ∀ s a s', Runs step s a s' → s.tree.Extends s'.tree

namespace Keeps

theorem of_tree_eq {step : Step α} (h : ∀ s a s', Runs step s a s' → s'.tree = s.tree) :
    Keeps step := fun s a s' run => h s a s' run ▸ .refl _

protected theorem pure (a : α) : Keeps (pure a : Step α) :=
  of_tree_eq fun _ _ _ run => by rw [(runs_pure.mp run).2]

protected theorem require (value : Except Fault α) : Keeps (require value) :=
  of_tree_eq fun _ _ _ run => by rw [(runs_require.mp run).2]

theorem get : Keeps get :=
  of_tree_eq fun _ _ _ run => by rw [(runs_get.mp run).2]

theorem currentTree : Keeps currentTree :=
  of_tree_eq fun _ _ _ run => by rw [(runs_currentTree.mp run).2]

theorem currentlyKnown : Keeps currentlyKnown :=
  of_tree_eq fun _ _ _ run => by rw [(runs_currentlyKnown.mp run).2]

theorem setKnown (known : NameMap Known) : Keeps (setKnown known) :=
  of_tree_eq fun _ _ _ run => by rw [← runs_setKnown.mp run]

theorem forget (name : String) : Keeps (forget name) :=
  of_tree_eq fun _ _ _ run => by rw [← runs_forget.mp run]

theorem forgetWritten (id : NodeId) : Keeps (forgetWritten id) :=
  of_tree_eq fun _ _ _ run => (runs_forgetWritten run).1

theorem replaceRead (id : NodeId) (literal : Known) : Keeps (replaceRead id literal) :=
  fun _ _ _ run => Tree.extends_putLiteral (runs_replaceRead run).1

protected theorem bind {step : Step α} {k : α → Step β} (first : Keeps step)
    (rest : ∀ a, Keeps (k a)) : Keeps (step >>= k) := by
  intro s b s' run
  obtain ⟨a, between, runFirst, runRest⟩ := runs_bind.mp run
  exact (first _ _ _ runFirst).trans (rest _ _ _ _ runRest)

protected theorem ite {c : Prop} [Decidable c] {step step' : Step α} (h : Keeps step)
    (h' : Keeps step') : Keeps (if c then step else step') := by
  split
  · exact h
  · exact h'

protected theorem forM {f : α → Step PUnit} (each : ∀ a, Keeps (f a)) (xs : List α) :
    Keeps (xs.forM f) := by
  induction xs with
  | nil => exact .pure _
  | cons x xs ih => exact (each x).bind fun _ => ih

/-- A loop leaves the labels if each round does. -/
protected theorem loop {f : α → PUnit → Step (ForInStep PUnit)} (each : ∀ a u, Keeps (f a u))
    (xs : List α) : Keeps (forIn xs PUnit.unit f) := by
  induction xs with
  | nil => exact .pure _
  | cons x xs ih =>
    rw [List.forIn_cons]
    refine (each x _).bind fun step => ?_
    cases step with
    | done u => exact .pure u
    | yield u => exact ih

end Keeps

section
variable (table : SymbolTable) (method : String)

theorem keeps_expression (depth : Nat) (id : NodeId) :
    Keeps (expression table method depth id) := by
  induction depth generalizing id with
  | zero => exact .pure _
  | succ depth ih =>
    refine .bind .currentTree fun tree => ?_
    split
    · refine .bind (.require _) fun name => .ite (.bind .currentlyKnown fun known => ?_) (.pure _)
      split
      · exact .replaceRead _ _
      · exact .pure _
    · refine .ite ?_ (.bind (.loop (fun child _ => ?_) _) fun _ => .pure _)
      case refine_2 => exact .bind (ih child) fun _ => .pure _
      refine .bind (.require _) fun target => .bind (.require _) fun value => ?_
      refine .bind (ih value) fun _ => .bind .currentTree fun tree => .ite ?_ ?_
      · exact .bind (.require _) fun name => .bind (.forget _) fun _ => .pure _
      · exact .bind (ih target) fun _ => .pure _

theorem keeps_noteAssigned (id value : NodeId) : Keeps (noteAssigned table method id value) := by
  refine .bind .currentTree fun tree => .bind (.require _) fun target => .ite (.ite ?_ ?_) (.pure _)
  · exact .bind (.require _) fun text => .bind .currentlyKnown fun known => .setKnown _
  · exact .forget _

theorem keeps_statement (depth : Nat) (id : NodeId) : Keeps (statement table method depth id) := by
  have inside := keeps_expression table method
  induction depth generalizing id with
  | zero => exact .pure _
  | succ depth ih =>
    refine .bind .currentTree fun tree => ?_
    split
    · exact .forM ih _
    · split
      · exact .bind (inside _ _) fun _ => .pure _
      · exact .pure _
    · split
      · exact .bind (inside _ _) fun _ => .pure _
      · exact .pure _
    · refine .bind (.loop (fun child _ => ?_) _) fun _ => .pure _
      exact .bind (inside _ child) fun _ => .pure _
    · refine .bind (.require _) fun child => .bind (inside _ child) fun value => ?_
      exact keeps_noteAssigned table method id value
    · refine .bind (.require _) fun condition => .bind (.require _) fun yes => ?_
      refine .bind (inside _ condition) fun _ => .bind .currentlyKnown fun before => ?_
      refine .bind (ih yes) fun _ => .bind .currentlyKnown fun afterYes => ?_
      refine .bind (.setKnown _) fun _ => .bind .currentTree fun tree => ?_
      split
      · exact .bind (ih _) fun _ => .bind .currentlyKnown fun _ => .setKnown _
      · exact .bind .currentlyKnown fun _ => .setKnown _
    · refine .bind (.require _) fun condition => .bind (.require _) fun body => ?_
      refine .bind (.forgetWritten _) fun _ => .bind (inside _ condition) fun _ => ?_
      exact .bind .currentlyKnown fun before => .bind (ih body) fun _ => .setKnown _
    · refine .bind (.require _) fun init => .bind (.require _) fun condition => ?_
      refine .bind (.require _) fun update => .bind (.require _) fun body => ?_
      refine .bind (ih init) fun _ => .bind (.forgetWritten _) fun _ => ?_
      refine .bind (inside _ condition) fun _ => .bind .currentlyKnown fun before => ?_
      exact .bind (ih body) fun _ => .bind (ih update) fun _ => .setKnown _
    · exact .pure _

theorem keeps_methodBody (decl : NodeId) : Keeps (methodBody table decl) := by
  refine .bind .currentTree fun tree => .bind (.require _) fun context => ?_
  refine .bind (.setKnown _) fun _ => ?_
  refine .bind (.loop (fun child _ => .ite ?_ (.pure _)) _) fun _ => .pure _
  exact .bind (keeps_statement table _ _ child) fun _ => .pure _

theorem extends_of_propagate {tree tree' : Tree} {count : Nat}
    (run : Runs (propagate table) tree count tree') : tree.Extends tree' := by
  obtain ⟨s', steps, rfl⟩ := runs_propagate run
  have keeps : Keeps (propagate.steps table tree) := by
    refine .bind (.require _) fun decl => .bind (.loop (fun m _ => ?_) _) fun _ => ?_
    · exact .bind (keeps_methodBody table m.id) fun _ => .pure _
    · exact .bind .get fun _ => .pure _
  exact keeps _ _ _ steps

end
end Propagation

theorem Folding.extends_of_fold {tree after : Tree} {count : Nat} (linked : tree.Linked)
    (shaped : tree.rootTerm.WellFormed) (run : Runs fold tree count after) :
    tree.Extends after := by
  have steps := steps_of_fold linked shaped run
  clear run
  induction steps with
  | refl => exact .refl _
  | tail _ step ih =>
    obtain ⟨-, -, put⟩ := step
    exact ih.trans (Tree.extends_putLiteral put)

end ClassCompiler
