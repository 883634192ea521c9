import ClassCompiler.Proofs.Collections
import ClassCompiler.Proofs.Syntax.Context
import ClassCompiler.Syntax.Draft
import ClassCompiler.Syntax.Printer

/-! Copies. The copy of a node is made in the tree that is copied from: the new nodes get the next
numbers in the order in which a walk comes to the old ones, and no old node is touched. -/

namespace ClassCompiler
set_option autoImplicit false

open List (Forall₂)

namespace Term

theorem size_pos (term : Term) : 0 < term.size := by
  cases term
  exact Nat.succ_pos _

/-- Two terms that differ in the numbers of their nodes only. -/
inductive Alike : Term → Term → Prop where
  | node {id id' : NodeId} {label : Label} {children children' : List Term}
      (below : Forall₂ Alike children children') :
      Alike (.node id label children) (.node id' label children')

theorem Alike.lines_eq {a b : Term} (h : Alike a b) (indent : Nat) :
    b.lines indent = a.lines indent := by
  induction a using Term.induct generalizing b indent with
  | step id label children ih =>
    cases h with
    | @node _ _ _ _ children' below =>
      have all : linesAll (indent + 2) children' = linesAll (indent + 2) children := by
        clear * - ih below
        induction below with
        | nil => rfl
        | cons first _ again =>
          rw [List.forall_mem_cons] at ih
          rw [linesAll, linesAll, ih.1 first, again ih.2]
      rw [lines, lines, all]

theorem Alike.text_eq {a b : Term} (h : Alike a b) : b.text = a.text := by
  rw [text, text, h.lines_eq]

end Term

namespace Tree

theorem node_pushChild {tree : Tree} {parent child : NodeId} (hparent : parent < tree.size)
    (hchild : child < tree.size) (apart : parent ≠ child) (id : NodeId) :
    (tree.pushChild parent child).node id =
      if id = child then { tree.node child with parent := some parent }
      else if id = parent then
        { tree.node parent with children := tree.children parent ++ [child] }
      else tree.node id := by
  rw [pushChild, node_modify _ _ _ (by simpa using hchild), node_modify _ _ _ hparent,
    node_modify _ _ _ hparent, if_neg apart.symm]
  rfl

/-- What a copy of a term leaves: the nodes that were there are as before, and the copy consists of
the new ones. -/
structure Copied (tree : Tree) (term : Term) (after : Tree) (copied : Term) : Prop where
  size_eq : after.size = tree.size + term.size
  root_eq : after.root = tree.root
  kept : ∀ id < tree.size, after.node id = tree.node id
  alike : term.Alike copied
  ids_eq : copied.ids = List.range' tree.size term.size
  holds : after.Holds copied
  detached : after.parent? copied.id = none

/-- What copies of several terms leave that a node has got for its last children. -/
structure Adopted (tree : Tree) (parent : NodeId) (terms : List Term) (after : Tree)
    (copies : List Term) : Prop where
  size_eq : after.size = tree.size + Term.sizeAll terms
  root_eq : after.root = tree.root
  kept : ∀ id < tree.size, id ≠ parent → after.node id = tree.node id
  own : after.node parent =
    { tree.node parent with children := tree.children parent ++ copies.map Term.id }
  alike : Forall₂ Term.Alike terms copies
  ids_eq : copies.flatMap Term.ids = List.range' tree.size (Term.sizeAll terms)
  holds : ∀ copy ∈ copies, after.Holds copy ∧ after.parent? copy.id = some parent

section
variable {tree after : Tree} {term copied : Term} (h : Copied tree term after copied)
include h

theorem Copied.id_eq : copied.id = tree.size := by
  cases copied with
  | node id label children =>
    have listed := h.ids_eq
    rw [Term.ids_node] at listed
    have first := congrArg List.head? listed
    rw [List.head?_cons, List.head?_range'] at first
    split at first
    · cases first
    · exact Option.some.inj first

theorem Copied.grown : tree.size < after.size := by
  rw [h.size_eq]
  exact Nat.lt_add_of_pos_right term.size_pos

theorem Copied.fresh : ∀ id ∈ copied.ids, tree.size ≤ id ∧ id < after.size := by
  intro id hid
  rw [h.ids_eq, List.mem_range'_1] at hid
  rwa [h.size_eq]

end

theorem Adopted.nil (tree : Tree) (parent : NodeId) : Adopted tree parent [] tree [] where
  size_eq := rfl
  root_eq := rfl
  kept _ _ _ := rfl
  own := by simp [children]
  alike := .nil
  ids_eq := rfl
  holds := by simp

theorem Adopted.cons {tree mid after : Tree} {parent : NodeId} {term copied : Term}
    {terms copies : List Term} (first : Copied tree term mid copied)
    (others : Adopted (mid.pushChild parent copied.id) parent terms after copies)
    (hparent : parent < tree.size) : Adopted tree parent (term :: terms) after (copied :: copies) := by
  have root : copied.id = tree.size := first.id_eq
  have above : parent < mid.size := Nat.lt_trans hparent first.grown
  have inside : copied.id < mid.size := root ▸ first.grown
  have apart : parent ≠ copied.id := root ▸ Nat.ne_of_lt hparent
  have pushed : ∀ id, (mid.pushChild parent copied.id).node id = _ :=
    node_pushChild above inside apart
  have later : ∀ id < mid.size, id ≠ parent →
      after.node id = (mid.pushChild parent copied.id).node id := by
    intro id hid other
    apply others.kept id _ other
    rwa [size_pushChild]
  have rootNode : after.node copied.id = { mid.node copied.id with parent := some parent } := by
    rw [later _ inside apart.symm, pushed, if_pos rfl]
  constructor
  · rw [others.size_eq, size_pushChild, first.size_eq, Term.sizeAll, Nat.add_assoc]
  · rw [others.root_eq, root_pushChild, first.root_eq]
  · intro id old other
    have unlike : id ≠ copied.id := root ▸ Nat.ne_of_lt old
    rw [later id (Nat.lt_trans old first.grown) other, pushed, if_neg unlike, if_neg other,
      first.kept id old]
  · have mine : (mid.pushChild parent copied.id).node parent =
        { tree.node parent with children := tree.children parent ++ [copied.id] } := by
      rw [pushed, if_neg apart, if_pos rfl, children, children, first.kept parent hparent]
    rw [others.own, children, mine]
    simp
  · exact .cons first.alike others.alike
  · rw [List.flatMap_cons, first.ids_eq, others.ids_eq, size_pushChild, first.size_eq,
      Term.sizeAll, ← List.range'_append_1]
  · refine List.forall_mem_cons.mpr ⟨⟨?_, ?_⟩, others.holds⟩
    · have distinct : copied.ids.Nodup := first.ids_eq ▸ List.nodup_range'
      refine first.holds.adopted distinct rootNode fun id hid other => ?_
      obtain ⟨new, old⟩ := first.fresh id hid
      have unlike : id ≠ parent := Nat.ne_of_gt (Nat.lt_of_lt_of_le hparent new)
      rw [later id old unlike, pushed, if_neg other, if_neg unlike]
    · rw [parent?, rootNode]

/-- If a function copies each of several terms, their copies become children of a node that is in
none of them. -/
theorem exists_adopted {copyOf : Tree → NodeId → Option (Tree × NodeId)} {terms : List Term}
    (copies : ∀ term ∈ terms, ∀ tree : Tree, tree.Reads term →
      ∃ after copied, copyOf tree term.id = some (after, copied.id) ∧ Copied tree term after copied)
    {tree : Tree} {parent : NodeId} (hparent : parent < tree.size)
    (reads : ∀ term ∈ terms, tree.Reads term) (apart : ∀ term ∈ terms, parent ∉ term.ids) :
    ∃ after copied, (terms.map Term.id).foldlM (adopt copyOf parent) tree = some after ∧
      Adopted tree parent terms after copied := by
  induction terms generalizing tree with
  | nil => exact ⟨tree, [], rfl, .nil tree parent⟩
  | cons term terms ih =>
    rw [List.forall_mem_cons] at copies reads apart
    obtain ⟨mid, copied, run, made⟩ := copies.1 tree reads.1
    have root : copied.id = tree.size := made.id_eq
    have above : parent < mid.size := Nat.lt_trans hparent made.grown
    -- The children that are left are read in the tree as it has become.
    have unread : ∀ t ∈ terms, (mid.pushChild parent copied.id).Reads t := by
      intro t ht
      apply (reads.2 t ht).congr
      · rw [size_pushChild]
        exact Nat.le_of_lt made.grown
      · intro id hid
        have inside := (reads.2 t ht).inside id hid
        have other : id ≠ parent := fun same => apart.2 t ht (same ▸ hid)
        have unlike : id ≠ copied.id := root ▸ Nat.ne_of_lt inside
        rw [node_pushChild above (root ▸ made.grown) (root ▸ Nat.ne_of_lt hparent),
          if_neg unlike, if_neg other, made.kept id inside]
    have room : parent < (mid.pushChild parent copied.id).size := by rwa [size_pushChild]
    obtain ⟨after, others, runs, rest⟩ := ih copies.2 room unread apart.2
    refine ⟨after, copied :: others, ?_, .cons made rest hparent⟩
    have one : adopt copyOf parent tree term.id = some (mid.pushChild parent copied.id) := by
      rw [adopt, run]
      rfl
    rw [List.map_cons, List.foldlM_cons, one]
    exact runs

/-- The copy of a node, when the copies of its children have become its own children. -/
theorem Copied.of_adopted {tree after : Tree} {id : NodeId} {label : Label}
    {children copies : List Term}
    (h : Adopted (tree.add { label }).1 tree.size children after copies) :
    Copied tree (.node id label children) after (.node tree.size label copies) := by
  have own : after.node tree.size =
      { label, children := copies.map Term.id, parent := none } := by
    rw [h.own, Tree.children, node_add, if_pos rfl, List.nil_append]
  have grown : (tree.add { label }).1.size = tree.size + 1 := size_add _ _
  constructor
  · rw [h.size_eq, grown, Term.size, Nat.add_assoc, Nat.add_comm 1]
  · exact h.root_eq
  · intro i inside
    have other : i ≠ tree.size := Nat.ne_of_lt inside
    rw [h.kept i (grown ▸ Nat.lt_succ_of_lt inside) other, node_add, if_neg other]
  · exact .node h.alike
  · rw [Term.ids_node, h.ids_eq, grown, Term.size, List.range'_succ]
  · apply holds_node_iff.mpr
    refine ⟨⟨?_, ?_, ?_⟩, fun copy hc => (h.holds copy hc).1⟩
    · exact congrArg Node.label own
    · exact congrArg Node.children own
    · exact fun copy hc => (h.holds copy hc).2
  · exact congrArg Node.parent own

/-- A term is copied within any depth that is not less than its height. -/
theorem exists_copied {depth : Nat} (term : Term) {tree : Tree} (reads : tree.Reads term)
    (deep : term.height ≤ depth) :
    ∃ after copied, tree.copyWithin depth term.id = some (after, copied.id) ∧
      Copied tree term after copied := by
  induction term using Term.induct generalizing tree depth with
  | step id label children ih =>
    obtain ⟨-, own, below⟩ := reads_node_iff.mp reads
    have hlabel : (tree.node id).label = label := own.label
    have hchildren : (tree.node id).children = children.map Term.id := own.children
    cases depth with
    | zero => cases deep
    | succ depth =>
      have each := Term.heightAll_le_iff.mp (Nat.le_of_succ_le_succ deep)
      have unread : ∀ child ∈ children, (tree.add { label }).1.Reads child := by
        intro child hc
        refine (below child hc).congr (by simp) fun i hi => ?_
        rw [node_add, if_neg (Nat.ne_of_lt ((below child hc).inside i hi))]
      have apart : ∀ child ∈ children, tree.size ∉ child.ids := fun child hc hid =>
        Nat.lt_irrefl _ ((below child hc).inside _ hid)
      obtain ⟨after, copies, runs, made⟩ := exists_adopted
        (fun child hc _ readable => ih child hc readable (each child hc)) (by simp) unread apart
      refine ⟨after, .node tree.size label copies, ?_, .of_adopted made⟩
      have run : tree.copyWithin (depth + 1) id =
          ((children.map Term.id).foldlM (adopt (copyWithin depth) tree.size)
            (tree.add { label }).1).bind fun after => some (after, tree.size) := by
        rw [copyWithin, hlabel, hchildren]
        rfl
      rw [Term.id, run, runs]
      rfl

/-- More depth than is enough makes no difference. -/
theorem copyWithin_mono {depth more : Nat} {tree : Tree} {id : NodeId} {result : Tree × NodeId}
    (h : tree.copyWithin depth id = some result) (deeper : depth ≤ more) :
    tree.copyWithin more id = some result := by
  induction depth generalizing more tree id result with
  | zero => cases h
  | succ depth ih =>
    cases more with
    | zero => cases deeper
    | succ more =>
      rw [copyWithin] at h ⊢
      obtain ⟨after, copied, same⟩ := Option.bind_eq_some_iff.mp h
      refine Option.bind_eq_some_iff.mpr ⟨after, foldlM_eq_some_mono ?_ copied, same⟩
      intro tree child after adopted
      obtain ⟨result, copied, same⟩ := Option.bind_eq_some_iff.mp adopted
      exact Option.bind_eq_some_iff.mpr
        ⟨result, ih copied (Nat.le_of_succ_le_succ deeper), same⟩

/-- The copy of a node is independent and equal. Wherever what is below a node comes to an end, the
copy is made, and no depth that is greater than the number of nodes makes a difference. The tree has
as many more nodes as the term at the node and is as it was otherwise, and this term is still read
at the node. The copy has all the new nodes and no other ones; it is linked, without a parent for
its root, and like the term in all but the numbers, so its text is the same. -/
theorem copy_of_finite (tree : Tree) (id : NodeId) (h : tree.Finite id) :
    ∃ after, tree.copy id = (after, tree.size) ∧
      (∀ depth ≥ tree.size, tree.copyWithin depth id = some (after, tree.size)) ∧
      Copied tree (tree.term id) after (after.term tree.size) ∧
      tree.Reads (tree.term id) ∧ after.Reads (tree.term id) ∧
      (after.term tree.size).text = (after.term id).text := by
  obtain ⟨term, rfl, reads⟩ := h
  obtain ⟨after, copied, run, made⟩ := exists_copied term reads reads.height_le
  have root : copied.id = tree.size := made.id_eq
  have whole : after.term tree.size = copied := by
    rw [← root]
    apply made.holds.unfold_eq
    rw [← copied.length_ids, made.ids_eq, List.length_range', made.size_eq]
    omega
  have kept : after.Reads term :=
    reads.congr (Nat.le_of_lt made.grown) fun id hid => made.kept id (reads.inside id hid)
  rw [reads.term_eq]
  refine ⟨after, ?_, ?_, ?_, reads, kept, ?_⟩
  · rw [copy, run, root, Option.getD_some]
  · intro depth deeper
    rw [← root]
    exact copyWithin_mono run deeper
  · rw [whole]
    exact made
  · rw [whole, kept.term_eq, made.alike.text_eq]

section Increment
open Draft

/-- A variable is increased by one. -/
def incrementTree : Tree :=
  let made : Construction NodeId := do
    assign "x" (← binary "+" (← identifier "x" 1) (← intLiteral 1 1) 1) 1
  (made.run {}).2.finish (made.run {}).1

theorem copy_of_finite_increment : incrementTree.Finite 2 ∧
    ∃ after, incrementTree.copy 2 = (after, 4) ∧ after.size = 7 ∧
      (∀ id < 4, after.node id = incrementTree.node id) ∧
      (after.term 4).ids = [4, 5, 6] ∧ after.Holds (after.term 4) ∧ after.parent? 4 = none ∧
      (after.term 4).text = (after.term 2).text := by
  obtain ⟨finite, nodes, count⟩ : incrementTree.Finite 2 ∧ incrementTree.size = 4 ∧
      (incrementTree.term 2).size = 3 := by decide +kernel
  obtain ⟨after, run, -, copied, -, -, text⟩ := copy_of_finite incrementTree 2 finite
  have size := copied.size_eq
  have kept := copied.kept
  have ids := copied.ids_eq
  have detached := copied.detached
  have holds := copied.holds
  rw [nodes] at run kept ids holds text size
  rw [copied.id_eq, nodes] at detached
  rw [count] at ids size
  exact ⟨finite, after, run, size, kept, ids, holds, detached, text⟩

end Increment
end Tree
end ClassCompiler
