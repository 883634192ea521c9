import ClassCompiler.Proofs.Syntax.Context
import ClassCompiler.Proofs.Syntax.Walk
import ClassCompiler.Syntax.Draft

/-! Three ways through a tree. A loop with a stack, a recursion and a walk come to the same nodes in
the same order, and the scope in which the walk comes to a node is that of the method that the
links to parents lead to. -/

namespace ClassCompiler
set_option autoImplicit false

namespace Term

mutual

/-- The numbers of the nodes of a term, each before those below it. -/
def preorder : Term → List NodeId
  | node id _ children => id :: preorderAll children

def preorderAll : List Term → List NodeId
  | [] => []
  | term :: terms => term.preorder ++ preorderAll terms

end

theorem preorder_eq_ids (term : Term) : term.preorder = term.ids := by
  induction term using Term.induct with
  | step id label children ih =>
    rw [preorder, ids_node]
    congr 1
    clear * - ih
    induction children with
    | nil => rfl
    | cons child rest again =>
      rw [List.forall_mem_cons] at ih
      rw [preorderAll, List.flatMap_cons, ih.1, again ih.2]

theorem visits_walkAll {scope : Scope} {terms : List Term}
    (ends : (walkAll scope terms).fault = none) :
    (walkAll scope terms).visits = terms.flatMap fun t => (t.walk scope).visits := by
  induction terms with
  | nil => rfl
  | cons term terms ih =>
    rw [walkAll, Walk.fault_andThen] at ends
    rw [walkAll, Walk.visits_andThen ends.1, ih ends.2, List.flatMap_cons]

/-- A walk that comes to its end has been to each term once, parents before children. -/
theorem visits_walk {term : Term} {scope : Scope} (ends : (term.walk scope).fault = none) :
    (term.walk scope).visits.map Visit.term = term :: term.descendants := by
  induction term using Term.induct generalizing scope with
  | step id label children ih =>
    obtain ⟨inner, hinner, -, below⟩ := walk_children ends
    have whole : walk scope (.node id label children) =
        (Walk.mk [⟨.node id label children, inner⟩] none).andThen (walkAll inner children) := by
      simp only [walk, hinner]
    have rest : (walkAll inner children).fault = none := fault_walkAll fun t ht => (below t ht).1
    rw [whole, Walk.visits_andThen rfl, visits_walkAll rest, List.singleton_append, List.map_cons,
      descendants_eq_flatMap, List.map_flatMap]
    congr 1
    exact List.flatMap_congr fun child hc => ih child hc (below child hc).1

end Term

namespace Tree

/-- The loop takes off the stack what the terms of the nodes on it unroll to. It has as many rounds
as these terms have nodes, and then the stack is empty. -/
theorem drain_eq {tree : Tree} {pending : List Term} {rounds : Nat}
    (reads : ∀ t ∈ pending, tree.Reads t) (enough : Term.sizeAll pending ≤ rounds)
    (taken : List NodeId) : tree.drain taken rounds (pending.map Term.id) =
      some (taken ++ (Term.unroll pending).map Term.id) := by
  induction pending using Term.unroll.induct generalizing taken rounds with
  | case1 => simp [drain, Term.unroll]
  | case2 id label children pending ih =>
    rw [List.forall_mem_cons] at reads
    obtain ⟨-, own, below⟩ := reads_node_iff.mp reads.1
    have hchildren : tree.children id = children.map Term.id := own.children
    have unread : ∀ t ∈ children ++ pending, tree.Reads t := by
      intro t ht
      exact (List.mem_append.mp ht).elim (below t) (reads.2 t)
    rw [Term.sizeAll, Term.size] at enough
    cases rounds with
    | zero => omega
    | succ rounds =>
      have fewer : Term.sizeAll (children ++ pending) ≤ rounds := by
        rw [Term.sizeAll_append]
        omega
      rw [List.map_cons, Term.id, drain, hchildren, ← List.map_append, ih unread fewer,
        Term.unroll, List.map_cons, Term.id, List.append_assoc, List.singleton_append]

theorem Reads.descendants?_eq {tree : Tree} {term : Term} (h : tree.Reads term)
    (enough : term.size ≤ tree.size) :
    tree.descendants? term.id = some (term.descendants.map Term.id) := by
  cases term with
  | node id label children =>
    obtain ⟨-, own, below⟩ := reads_node_iff.mp h
    have hchildren : tree.children id = children.map Term.id := own.children
    rw [descendants?, Term.id, hchildren, drain_eq below (Nat.le_of_succ_le enough),
      List.nil_append]
    rfl

/-- The way up from a node to another one along the links to parents: both nodes and those between
them. -/
inductive Path (tree : Tree) (top : NodeId) : NodeId → List NodeId → Prop where
  | arrived : Path tree top top [top]
  | up {id parent : NodeId} {path : List NodeId} (below : id ≠ top)
      (link : tree.parent? id = some parent) (rest : Path tree top parent path) :
      Path tree top id (id :: path)

def isMethod (tree : Tree) (id : NodeId) : Bool := tree.kind id = .methodDecl

section
variable {tree : Tree} {top id : NodeId} {path : List NodeId}

theorem Path.extend {parent : NodeId} (h : tree.Path top id path)
    (link : tree.parent? top = some parent) (new : parent ∉ path) :
    tree.Path parent id (path ++ [parent]) := by
  induction h with
  | arrived =>
    have apart : top ≠ parent := fun same => new (List.mem_singleton.mpr same.symm)
    exact .up apart link .arrived
  | @up id _ _ _ above _ ih =>
    rw [List.mem_cons, not_or] at new
    exact .up (Ne.symm new.1) above (ih new.2)

theorem Path.exists_cons (h : tree.Path top id path) : ∃ above, path = id :: above := by
  cases h <;> exact ⟨_, rfl⟩

/-- The search for a method above a node goes along the way up, and then on. -/
theorem Path.climb_eq {above : List NodeId} (h : tree.Path top id (id :: above)) (steps : Nat) :
    ancestorOfKind?.climb tree .methodDecl (above.length + steps) id =
      (above.find? tree.isMethod).or (ancestorOfKind?.climb tree .methodDecl steps top) := by
  induction above generalizing id with
  | nil =>
    cases h with
    | arrived => simp
    | up _ _ rest => cases rest
  | cons parent above ih =>
    cases h with
    | up _ link rest =>
      obtain ⟨_, same⟩ := rest.exists_cons
      obtain ⟨rfl, -⟩ := List.cons.inj same
      have more : (parent :: above).length + steps = above.length + steps + 1 := by
        rw [List.length_cons]
        omega
      rw [more, ancestorOfKind?.climb, link, List.find?_cons]
      by_cases method : tree.kind parent = .methodDecl
      · simp [isMethod, method]
      · simp [isMethod, method, ih rest]

end

/-- The scope at the lower end of a way up: that of the first method on it, or the scope outside. -/
def Governs (tree : Tree) (outside : Scope) (path : List NodeId) (scope : Scope) : Prop :=
  match path.find? tree.isMethod with
  | some method => ∃ context, MethodContext.of (tree.term method) = .ok context ∧
      scope = ⟨some context⟩
  | none => scope = outside

/-- A term is a tree in the store: each node is there once, with a link to its parent. -/
structure Bears (tree : Tree) (term : Term) : Prop where
  holds : tree.Holds term
  distinct : term.ids.Nodup
  inside : ∀ id ∈ term.ids, id < tree.size

def TreeAt (tree : Tree) (id : NodeId) : Prop := ∃ term : Term, term.id = id ∧ tree.Bears term

section
variable {tree : Tree} {term : Term}

theorem Bears.reads (h : tree.Bears term) : tree.Reads term :=
  ⟨fun t ht => (h.holds t ht).spells, h.inside⟩

theorem Bears.size_le (h : tree.Bears term) : term.size ≤ tree.size := by
  rw [← term.length_ids]
  exact length_le_size h.distinct h.inside

theorem Bears.of_child {child : Term} (h : tree.Bears term) (hc : child ∈ term.children) :
    tree.Bears child ∧ term.id ∉ child.ids ∧ tree.parent? child.id = some term.id := by
  cases term with
  | node id label children =>
    obtain ⟨stored, below⟩ := holds_node_iff.mp h.holds
    have distinct := h.distinct
    rw [Term.ids_node, List.nodup_cons] at distinct
    have sub : child.ids ⊆ children.flatMap Term.ids := fun i hi =>
      List.mem_flatMap.mpr ⟨child, hc, hi⟩
    refine ⟨⟨below child hc, (List.nodup_flatMap.mp distinct.2).1 child hc, fun i hi => ?_⟩,
      fun hi => distinct.1 (sub hi), stored.parents child hc⟩
    apply h.inside
    rw [Term.ids_node]
    exact List.mem_cons_of_mem _ (sub hi)

theorem Linked.treeAt {id : NodeId} (linked : tree.Linked) (hid : id ∈ tree.rootTerm.ids) :
    tree.TreeAt id := by
  obtain ⟨t, ht, rfl⟩ := List.mem_map.mp hid
  obtain ⟨context, shown⟩ := Shows.exists_of_mem linked ht
  exact ⟨t, rfl, shown.holds, (List.nodup_append.mp shown.distinct).1,
    fun i hi => shown.inside i (List.mem_append_left _ hi)⟩

theorem Governs.extend {outside inside scope : Scope} {path : List NodeId} {top : NodeId}
    (h : tree.Governs inside path scope) (outer : tree.Governs outside [top] inside) :
    tree.Governs outside (path ++ [top]) scope := by
  unfold Governs at h ⊢
  rw [List.find?_append]
  cases found : path.find? tree.isMethod with
  | some method =>
    rw [found] at h
    exact h
  | none =>
    rw [found] at h
    obtain rfl : scope = inside := h
    exact outer

theorem Bears.governs {outside inside : Scope} (h : tree.Bears term)
    (opens : Term.innerScope outside term = .ok inside) :
    tree.Governs outside [term.id] inside := by
  have kind : tree.kind term.id = term.kind := h.holds.stores.kind_eq
  unfold Term.innerScope at opens
  split at opens
  · rename_i method
    have first : [term.id].find? tree.isMethod = some term.id := by
      simp [isMethod, kind, method]
    rw [Governs, first]
    cases hcontext : MethodContext.of term with
    | error fault =>
      rw [hcontext] at opens
      cases opens
    | ok context =>
      rw [hcontext] at opens
      refine ⟨context, ?_, (Except.ok.inj opens).symm⟩
      rw [h.reads.term_eq, hcontext]
  · rename_i other
    have none : [term.id].find? tree.isMethod = none := by
      simp [isMethod, kind, other]
    rw [Governs, none]
    exact (Except.ok.inj opens).symm

/-- A walk that comes to its end comes to each node in the scope that the way up from it
determines. -/
theorem Bears.exists_path {outside : Scope} {visit : Visit} (h : tree.Bears term)
    (ends : (term.walk outside).fault = none) (hvisit : visit ∈ (term.walk outside).visits) :
    ∃ path, tree.Path term.id visit.term.id path ∧ tree.Governs outside path visit.scope ∧
      path ⊆ term.ids ∧ path.length ≤ term.size := by
  induction term using Term.induct generalizing outside with
  | step id label children ih =>
    obtain ⟨inside, opens, -, below⟩ := Term.walk_children ends
    have own := h.governs opens
    obtain ⟨_, opens', rfl | ⟨child, hc, hvisit⟩⟩ := Term.visit_cases hvisit
    · obtain rfl := Except.ok.inj (opens.symm.trans opens')
      refine ⟨[id], .arrived, own, ?_, ?_⟩
      · exact List.cons_subset.mpr ⟨Term.id_mem_ids _, List.nil_subset _⟩
      · rw [List.length_singleton, Term.size]
        omega
    · obtain rfl := Except.ok.inj (opens.symm.trans opens')
      obtain ⟨bears, new, link⟩ := h.of_child hc
      obtain ⟨path, way, governs, within, short⟩ := ih child hc bears (below child hc).1 hvisit
      refine ⟨path ++ [id], way.extend link fun mem => new (within mem), governs.extend own, ?_, ?_⟩
      · rw [Term.ids_node]
        apply List.append_subset.mpr
        refine ⟨fun i hi => ?_, List.cons_subset.mpr ⟨List.mem_cons_self, List.nil_subset _⟩⟩
        exact List.mem_cons_of_mem _ (List.mem_flatMap.mpr ⟨child, hc, within hi⟩)
      · have hchild : child ∈ children := hc
        have smaller := Term.size_lt_of_mem id label hchild
        rw [List.length_append, List.length_singleton]
        omega

end

/-- On a way up that is no longer than there are nodes, the search for a method above a node finds
the first one, and it finds nothing else where there is nothing above the way. -/
theorem Path.ancestorOfKind?_eq {tree : Tree} {top id : NodeId} {above : List NodeId}
    (h : tree.Path top id (id :: above)) (short : above.length ≤ tree.size)
    (complete : tree.parent? top = none ∨ ∃ i ∈ above, tree.isMethod i) :
    tree.ancestorOfKind? id .methodDecl = above.find? tree.isMethod := by
  have along := h.climb_eq (tree.size - above.length)
  rw [Nat.add_sub_of_le short] at along
  rw [ancestorOfKind?, along]
  rcases complete with orphan | ⟨i, hi, method⟩
  · have nothing : ∀ steps, ancestorOfKind?.climb tree .methodDecl steps top = none := by
      rintro (_ | steps)
      · rfl
      · rw [ancestorOfKind?.climb, orphan]
    rw [nothing, Option.or_none]
  · have found : (above.find? tree.isMethod).isSome := List.find?_isSome.mpr ⟨i, hi, method⟩
    exact Option.or_of_isSome found

/-- All traversals agree. What is reached from a node being a tree with consistent links, the loop
with the stack comes to its end, and what it finds below the node is what the recursion finds after
it. A walk from the node that is begun outside all methods and comes to its end is at these nodes in
this order. It is at each of them in the scope of the first method on the way up to where it was
begun, or outside if there is none; and the search by the links to parents finds the same method,
unless it leaves the way. -/
theorem traversals_agree (tree : Tree) (id : NodeId) (h : tree.TreeAt id) :
    ∃ below, tree.descendants? id = some below ∧ (tree.term id).preorder = id :: below ∧
      (tree.term id).descendants.map Term.id = below ∧
      (((tree.term id).walk {}).fault = none →
        ((tree.term id).walk {}).visits.map (fun visit => visit.term.id) = id :: below ∧
        ∀ visit ∈ ((tree.term id).walk {}).visits, ∃ above,
          tree.Path id visit.term.id (visit.term.id :: above) ∧
          tree.Governs {} (visit.term.id :: above) visit.scope ∧
          (tree.parent? id = none ∨ (∃ i ∈ above, tree.isMethod i) →
            tree.ancestorOfKind? visit.term.id .methodDecl = above.find? tree.isMethod)) := by
  obtain ⟨term, rfl, bears⟩ := h
  rw [bears.reads.term_eq]
  refine ⟨_, bears.reads.descendants?_eq bears.size_le, term.preorder_eq_ids, rfl, fun ends => ⟨?_, ?_⟩⟩
  · have order := congrArg (List.map Term.id) (Term.visits_walk ends)
    rwa [List.map_map, List.map_cons] at order
  · intro visit hvisit
    obtain ⟨path, way, governs, -, short⟩ := bears.exists_path ends hvisit
    obtain ⟨above, rfl⟩ := way.exists_cons
    have bound := bears.size_le
    rw [List.length_cons] at short
    exact ⟨above, way, governs, way.ancestorOfKind?_eq (by omega)⟩

section Reading
open Draft

/-- A class with a field and a method that returns the field. -/
def readingTree : Tree :=
  let made : Construction NodeId := do
    let reading ← method "read" .int [] [← ret (some (← identifier "x" 2)) 2] false 2
    Draft.classDecl "Cell" none [← varDecl "x" .int 1, reading] 1
  (made.run {}).2.finish (made.run {}).1

theorem traversals_agree_reading : readingTree.TreeAt 6 ∧
    ((readingTree.term 6).walk {}).fault = none ∧
    readingTree.descendants? 6 = some [5, 4, 3, 2, 1, 0] ∧
    ((readingTree.term 6).walk {}).visits.map (fun visit => visit.term.id) =
      [6, 5, 4, 3, 2, 1, 0] ∧
    ∀ visit ∈ ((readingTree.term 6).walk {}).visits, ∃ above,
      readingTree.Path 6 visit.term.id (visit.term.id :: above) ∧
      readingTree.Governs {} (visit.term.id :: above) visit.scope ∧
      readingTree.ancestorOfKind? visit.term.id .methodDecl = above.find? readingTree.isMethod := by
  obtain ⟨linked, inside, order, ends, orphan⟩ : readingTree.Linked ∧
      6 ∈ readingTree.rootTerm.ids ∧
      (readingTree.term 6).descendants.map Term.id = [5, 4, 3, 2, 1, 0] ∧
      ((readingTree.term 6).walk {}).fault = none ∧ readingTree.parent? 6 = none := by
    decide +kernel
  have bears : readingTree.TreeAt 6 := linked.treeAt inside
  obtain ⟨below, loop, -, same, walked⟩ := traversals_agree readingTree 6 bears
  obtain ⟨visited, placed⟩ := walked ends
  rw [order] at same
  subst same
  refine ⟨bears, ends, loop, visited, fun visit hvisit => ?_⟩
  obtain ⟨above, way, governs, search⟩ := placed visit hvisit
  exact ⟨above, way, governs, search (.inl orphan)⟩

end Reading
end Tree
end ClassCompiler
