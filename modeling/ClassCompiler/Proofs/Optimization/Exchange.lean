import ClassCompiler.Proofs.Optimization.Counting

/-! What the optimizer leaves alone. A literal takes the place of a variable or an operation, in
the same slot and at the same location; every other node that is still reached is the node that it
was, and no statement or declaration comes or goes. -/

namespace ClassCompiler
set_option autoImplicit false

open List (Forall₂)

theorem Kind.isReplaceable_of_isLiteral {kind : Kind} (h : kind.isLiteral = true) :
    kind.isReplaceable = false := by
  cases kind <;> simp [isLiteral, isReplaceable] at h ⊢

namespace Term

/-- A term after another one: literals, numbered from some number on, have taken the places of
variables and operations. -/
inductive Exchanged (next : NodeId) : Term → Term → Prop where
  | literal {t : Term} {id : NodeId} {label : Label} (replaceable : t.kind.isReplaceable = true)
      (isLiteral : label.kind.isLiteral = true) (located : label.location = t.location)
      (fresh : next ≤ id) : Exchanged next t (.node id label [])
  | kept {id : NodeId} {label : Label} {children children' : List Term}
      (below : Forall₂ (Exchanged next) children children') :
      Exchanged next (.node id label children) (.node id label children')

/-- The nodes of a term that are no expressions, in order, with what they carry. -/
def outline (term : Term) : List (NodeId × Label) :=
  ((term :: term.descendants).filter fun t => !t.kind.isExpression).map fun t => (t.id, t.label)

theorem outline_node (id : NodeId) (label : Label) (children : List Term) :
    (node id label children).outline =
      (if label.kind.isExpression then [] else [(id, label)]) ++ children.flatMap outline := by
  rw [outline, descendants_eq_flatMap, List.filter_cons, List.filter_flatMap]
  have own : (node id label children).kind = label.kind := rfl
  rw [own]
  cases label.kind.isExpression
  · simp only [Bool.not_false, if_true, List.map_cons, List.map_flatMap]
    rfl
  · simp only [Bool.not_true, Bool.false_eq_true, if_false, if_true, List.map_flatMap]
    rfl

theorem WellFormed.outline_eq_nil {t : Term} (h : t.WellFormed)
    (expression : t.kind.isExpression = true) : t.outline = [] := by
  have none : (t :: t.descendants).filter (fun u => !u.kind.isExpression) = [] := by
    apply List.filter_eq_nil_iff.mpr
    intro u hu
    simp [h.isExpression expression u hu]
  rw [outline, none, List.map_nil]

namespace Exchanged
variable {next : NodeId} {t t' : Term}

theorem refl (next : NodeId) (t : Term) : Exchanged next t t := by
  induction t using Term.induct with
  | step id label children ih => exact .kept (List.forall₂_same.mpr ih)

theorem trans {later : NodeId} {a b c : Term} (h : Exchanged next a b)
    (h' : Exchanged later b c) (after : next ≤ later) : Exchanged next a c := by
  induction a using Term.induct generalizing b c with
  | step id label children ih =>
    cases h with
    | literal replaceable isLiteral located fresh =>
      cases h' with
      | literal again =>
        exact absurd again (by simp [Term.kind, Term.label, Kind.isReplaceable_of_isLiteral isLiteral])
      | kept below =>
        cases below
        exact .literal replaceable isLiteral located fresh
    | kept below =>
      cases h' with
      | literal replaceable isLiteral located fresh =>
        exact .literal replaceable isLiteral located (Nat.le_trans after fresh)
      | kept below' =>
        exact .kept (forall₂_comp below below' fun x hx _ _ first last => ih x hx first last)

theorem plug (context : Context) (h : Exchanged next t t') :
    Exchanged next (context.plug t) (context.plug t') := by
  induction context generalizing t t' with
  | hole => exact h
  | under outer id label before after ih => exact ih (.kept (forall₂_around h (refl next)))

theorem outline_eq (h : Exchanged next t t') (shaped : t.WellFormed) :
    t'.outline = t.outline := by
  induction t using Term.induct generalizing t' with
  | step id label children ih =>
    cases h with
    | literal replaceable isLiteral =>
      have expression : (node id label children).kind.isExpression = true := by
        rw [← Kind.isExpression_sort, Kind.sort_of_isReplaceable replaceable]
        rfl
      rw [shaped.outline_eq_nil expression, outline_node, ← Kind.isExpression_sort,
        Kind.sort_of_isLiteral isLiteral]
      rfl
    | @kept _ _ _ children' below =>
      have same : Forall₂ (fun c c' => c'.outline = c.outline) children children' :=
        forall₂_of_mem below fun c hc c' related => ih c hc related (shaped.child hc)
      have listed : children'.flatMap outline = children.flatMap outline := by
        clear * - same
        induction same with
        | nil => rfl
        | cons head _ rest => rw [List.flatMap_cons, List.flatMap_cons, head, rest]
      rw [outline_node, outline_node, listed]

/-- A term is the node that it was, or it is one of the literals. -/
theorem kept_or_literal (h : Exchanged next t t') :
    (t'.id = t.id ∧ t'.label = t.label ∧ t'.children.length = t.children.length) ∨
    (t.kind.isReplaceable = true ∧ t'.kind.isLiteral = true ∧ t'.location = t.location ∧
      next ≤ t'.id ∧ t'.children = []) := by
  cases h with
  | literal replaceable isLiteral located fresh =>
    exact .inr ⟨replaceable, isLiteral, located, fresh, rfl⟩
  | kept below => exact .inl ⟨rfl, rfl, below.length_eq.symm⟩

/-- What stands in a slot of a node has come after what stood in that slot. -/
theorem exists_origin (h : Exchanged next t t') {p' c' : Term} (hp' : p' ∈ t' :: t'.descendants)
    {slot : Nat} (stands : p'.children[slot]? = some c') :
    ∃ p ∈ t :: t.descendants, p.id = p'.id ∧
      ∃ c, p.children[slot]? = some c ∧ Exchanged next c c' := by
  induction t using Term.induct generalizing t' with
  | step id label children ih =>
    cases h with
    | literal =>
      obtain rfl : p' = _ := by simpa [descendants, Term.children, unroll] using hp'
      cases stands
    | @kept _ _ _ children' below =>
      rcases List.mem_cons.mp hp' with rfl | hp'
      · obtain ⟨c, stood, related⟩ := forall₂_getElem? below stands
        exact ⟨_, List.mem_cons_self, rfl, c, stood, related⟩
      · obtain ⟨d', hd', hp'⟩ := exists_child_of_mem_descendants hp'
        obtain ⟨place, hplace⟩ := List.getElem?_of_mem hd'
        obtain ⟨d, hd, related⟩ := forall₂_getElem? below hplace
        have hd := List.mem_of_getElem? hd
        obtain ⟨p, hp, rest⟩ := ih d hd related hp'
        exact ⟨p, List.mem_cons_of_mem _ (mem_descendants_of_child hd hp), rest⟩

end Exchanged
end Term

namespace Tree

/-- A node that is reached in a tree was reached before, as the same node with as many
children. -/
structure Retains (tree after : Tree) (id : NodeId) : Prop where
  reached : id ∈ tree.rootTerm.ids
  label : (after.node id).label = (tree.node id).label
  arity : (after.children id).length = (tree.children id).length

/-- A new literal stands in a slot of a node where a variable or an operation stood, at the
location of that, which is not reached any more. -/
structure Exchanges (tree after : Tree) (parent : NodeId) (slot : Nat) (old new : NodeId) :
    Prop where
  above : parent ∈ tree.rootTerm.ids ∧ parent ∈ after.rootTerm.ids
  stood : (tree.children parent)[slot]? = some old
  stands : (after.children parent)[slot]? = some new
  linked : tree.parent? old = some parent ∧ after.parent? new = some parent
  replaceable : tree.kind old = .identifier ∨ tree.kind old = .binaryOp
  literal : after.kind new = .intLiteral ∨ after.kind new = .booleanLiteral
  childless : after.children new = []
  located : (after.node new).label.location = (tree.node old).label.location
  fresh : tree.size ≤ new
  gone : old ∉ after.rootTerm.ids

section
variable {tree after : Tree} {p p' c c' t t' : Term} {slot : Nat}

theorem Stores.getElem?_children (h : tree.Stores t) (hc : t.children[slot]? = some c) :
    (tree.children t.id)[slot]? = some c.id := by
  rw [h.children, List.getElem?_map, hc, Option.map_some]

/-- In a tree that is linked, a node stands in one slot only. -/
theorem Linked.slot_eq {q d : Term} {place : Nat} (linked : tree.Linked)
    (hp : p ∈ tree.rootTerm :: tree.rootTerm.descendants)
    (hq : q ∈ tree.rootTerm :: tree.rootTerm.descendants) (hc : p.children[slot]? = some c)
    (hd : q.children[place]? = some d) (same : d.id = c.id) : q.id = p.id ∧ place = slot := by
  have stored := (linked_iff.mp linked).1
  have placed := linked.placed hp (List.mem_of_getElem? hc)
  have placed' := linked.placed hq (List.mem_of_getElem? hd)
  have parent : q.id = p.id := by
    apply Option.some.inj
    rw [← placed.linked, ← placed'.linked, same]
  refine ⟨parent, ?_⟩
  have first := (stored p hp).getElem?_children hc
  have second := (stored q hq).getElem?_children hd
  rw [same, parent] at second
  have inside : slot < (tree.children p.id).length := (List.getElem?_eq_some_iff.mp first).1
  exact ((List.getElem?_inj inside placed.once).mp (first.trans second.symm)).symm

variable (linked : tree.Linked) (linked' : after.Linked)
  (h : tree.rootTerm.Exchanged tree.size after.rootTerm)
  (root : tree.rootTerm.kind.isReplaceable = false)
include linked linked'

theorem retains_of_kept (ht : t ∈ tree.rootTerm :: tree.rootTerm.descendants)
    (ht' : t' ∈ after.rootTerm :: after.rootTerm.descendants) (id : t'.id = t.id)
    (label : t'.label = t.label) (arity : t'.children.length = t.children.length) :
    tree.Retains after t'.id := by
  have stored := (linked_iff.mp linked).1 t ht
  have stored' := (linked_iff.mp linked').1 t' ht'
  refine ⟨id ▸ List.mem_map_of_mem ht, ?_, ?_⟩
  · rw [stored'.label, id, stored.label, label]
  · rw [stored'.children, id, stored.children, List.length_map, List.length_map, arity]

include h root

/-- The node that a literal stands for is not reached any more, as it stood nowhere else. -/
theorem not_mem_ids_of_literal (hp : p ∈ tree.rootTerm :: tree.rootTerm.descendants)
    (hp' : p' ∈ after.rootTerm :: after.rootTerm.descendants) (same : p.id = p'.id)
    (stood : p.children[slot]? = some c) (stands : p'.children[slot]? = some c')
    (fresh : tree.size ≤ c'.id) : c.id ∉ after.rootTerm.ids := by
  intro reached
  have placed := linked.placed hp (List.mem_of_getElem? stood)
  have inside : c.id < tree.size := placed.inside
  obtain ⟨w', hw', hid⟩ := List.mem_map.mp reached
  rcases List.mem_cons.mp hw' with rfl | hw'
  · rcases h.kept_or_literal with ⟨rootId, -⟩ | ⟨replaceable, -⟩
    · obtain ⟨-, ⟨-, orphan⟩, -⟩ := linked_iff.mp linked
      rw [← rootId, hid, placed.linked] at orphan
      cases orphan
    · rw [root] at replaceable
      cases replaceable
  · obtain ⟨q', hq', hchild⟩ := Term.exists_parent_of_mem_descendants hw'
    obtain ⟨place, hplace⟩ := List.getElem?_of_mem hchild
    obtain ⟨q, hq, hsame, w, hw, related⟩ := h.exists_origin hq' hplace
    rcases related.kept_or_literal with ⟨own, -⟩ | ⟨-, -, -, later, -⟩
    · obtain ⟨parent, rfl⟩ := linked.slot_eq hp hq stood hw (own.symm.trans hid)
      have first := ((linked_iff.mp linked').1 p' hp').getElem?_children stands
      have second := ((linked_iff.mp linked').1 q' hq').getElem?_children hplace
      rw [← hsame, parent, same, first, hid] at second
      have same : c'.id = c.id := Option.some.inj second
      exact absurd inside (Nat.not_lt.mpr (same ▸ fresh))
    · exact absurd inside (Nat.not_lt.mpr (hid ▸ later))

/-- Every node that is reached was reached before, or it is a literal in the place of something
that was. -/
theorem retains_or_exchanges {id : NodeId} (reached : id ∈ after.rootTerm.ids) :
    tree.Retains after id ∨ ∃ parent slot old, tree.Exchanges after parent slot old id := by
  obtain ⟨c', hc', rfl⟩ := List.mem_map.mp reached
  rcases List.mem_cons.mp hc' with rfl | below
  · rcases h.kept_or_literal with ⟨id, label, arity⟩ | ⟨replaceable, -⟩
    · exact .inl (retains_of_kept linked linked' List.mem_cons_self hc' id label arity)
    · rw [root] at replaceable
      cases replaceable
  · obtain ⟨p', hp', hchild⟩ := Term.exists_parent_of_mem_descendants below
    obtain ⟨slot, stands⟩ := List.getElem?_of_mem hchild
    obtain ⟨p, hp, same, c, stood, related⟩ := h.exists_origin hp' stands
    have hc : c ∈ tree.rootTerm :: tree.rootTerm.descendants :=
      Term.mem_descendants_trans hp (List.mem_cons_of_mem _
        (Term.mem_descendants_of_child (List.mem_of_getElem? stood) List.mem_cons_self))
    rcases related.kept_or_literal with
      ⟨id, label, arity⟩ | ⟨replaceable, literal, located, fresh, childless⟩
    · exact .inl (retains_of_kept linked linked' hc hc' id label arity)
    · have stored := (linked_iff.mp linked).1
      have stored' := (linked_iff.mp linked').1
      refine .inr ⟨p'.id, slot, c.id, ?_⟩
      constructor
      · exact ⟨same ▸ List.mem_map_of_mem hp, List.mem_map_of_mem hp'⟩
      · exact same ▸ (stored p hp).getElem?_children stood
      · exact (stored' p' hp').getElem?_children stands
      · exact ⟨same ▸ (stored p hp).parents c (List.mem_of_getElem? stood),
          (stored' p' hp').parents c' hchild⟩
      · rw [(stored c hc).kind_eq]
        cases kind : c.kind <;> simp [kind, Kind.isReplaceable] at replaceable ⊢
      · rw [(stored' c' hc').kind_eq]
        cases kind : c'.kind <;> simp [kind, Kind.isLiteral] at literal ⊢
      · rw [(stored' c' hc').children, childless, List.map_nil]
      · rw [(stored' c' hc').label, (stored c hc).label]
        exact located
      · exact fresh
      · exact not_mem_ids_of_literal linked linked' h root hp hp' same stood stands fresh

end
end Tree

theorem Tree.new_eq_of_putLiteral {tree after : Tree} {old new : NodeId} {literal : Known}
    (h : tree.putLiteral old literal = (.ok new, after)) : new = tree.size := by
  simp only [putLiteral] at h
  split at h
  · cases h
    rfl
  · cases h

variable {tree after : Tree}

theorem Swap.exchanged (h : Swap tree after) :
    tree.rootTerm.Exchanged tree.size after.rootTerm := by
  obtain ⟨shown, replaceable, -, literal, put⟩ := h
  rename_i context t known new
  rw [shown.rootTerm_eq, (shown.putLiteral put).rootTerm_eq]
  apply Term.Exchanged.plug
  exact .literal replaceable literal rfl (Nat.le_of_eq (Tree.new_eq_of_putLiteral put).symm)

theorem Swaps.exchanged (h : Swaps tree after) :
    tree.rootTerm.Exchanged tree.size after.rootTerm := by
  induction h with
  | refl => exact .refl _ _
  | tail first last ih => exact ih.trans last.exchanged (Swaps.size_le first)

/-- Folding and propagation, in whatever order and for however many rounds, leave a tree of the same
sort. Every node that is reached in it is the node that it was, with as many children, or a new
literal without children in the slot of a variable or an operation that is not reached any more. The
nodes that are no expressions are the same ones, in the same order and with what they carried. -/
theorem optimizer_exchanges_in_place {table : SymbolTable} {simplifications : List Simplification}
    {tree after : Tree} {limit : Nat} {summary : OptimizationSummary}
    (standard : simplifications ⊆ [constantFolding, constantPropagation])
    (wellFormed : tree.WellFormed)
    (run : Runs (Optimization.run simplifications table limit {}) tree summary after) :
    after.WellFormed ∧
      (∀ id ∈ after.rootTerm.ids,
        tree.Retains after id ∨ ∃ parent slot old, tree.Exchanges after parent slot old id) ∧
      after.rootTerm.outline = tree.rootTerm.outline := by
  have all : ∀ simplification ∈ [constantFolding, constantPropagation],
      simplification.Counts table := by
    simp only [List.forall_mem_cons, List.not_mem_nil, false_implies, implies_true, and_true]
    exact ⟨Folding.counts table, Propagation.counts table⟩
  obtain ⟨swaps, -⟩ := counts_of_run (fun _ listed => all _ (standard listed)) wellFormed run
  have wellFormed' := swaps.wellFormed wellFormed
  have root : tree.rootTerm.kind.isReplaceable = false := by
    rcases wellFormed.root with kind | kind <;> rw [kind] <;> rfl
  refine ⟨wellFormed', fun id reached => ?_, swaps.exchanged.outline_eq wellFormed.shaped⟩
  exact Tree.retains_or_exchanges wellFormed.linked wellFormed'.linked swaps.exchanged root reached

/-- Of the literals that are put into a tree of 23 nodes, the last one stands for an operation. -/
theorem optimizer_exchanges_in_place_scaling :
    scalingTree.WellFormed ∧ scalingOptimized.WellFormed ∧
      ∃ parent slot old, scalingTree.Exchanges scalingOptimized parent slot old 25 := by
  have wellFormed := scalingTree_shape.1
  have run := runs_optimize_scaling
  rw [optimize, if_pos rfl] at run
  obtain ⟨wellFormed', reached, -⟩ :=
    optimizer_exchanges_in_place (List.Subset.refl _) wellFormed run
  refine ⟨wellFormed, wellFormed', ?_⟩
  rcases reached 25 (by decide +kernel) with kept | exchanged
  · exact absurd kept.reached (by decide +kernel)
  · exact exchanged

end ClassCompiler
