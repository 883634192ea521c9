import ClassCompiler.Proofs.Syntax.Loading

/-! Which documents have a tree, and how its nodes are numbered and linked. The kind of a node is
looked at before its children are made, and the node gets its number after them. -/

namespace ClassCompiler
set_option autoImplicit false

namespace Document

mutual

/-- The names of the kinds in a document: a node's own, then those below it. -/
def kinds : Document → List String
  | .node kind _ children _ => kind :: kindsAll children

def kindsAll : List Document → List String
  | [] => []
  | document :: documents => document.kinds ++ kindsAll documents

end

def isUnknown (kind : String) : Bool := (Kind.ofName? kind).isNone

section Failing
variable {α β : Type} {m : ExceptT Fault Construction α} {draft : Draft}

/-- A computation fails at an unknown kind if there is one, and else succeeds. -/
def EndsAt (unknown : Option String) (m : ExceptT Fault Construction α) (draft : Draft) : Prop :=
  match unknown with
  | some kind => ∃ after, outcome m draft = (.error (.unknownKind kind), after)
  | none => Succeeds m draft

theorem EndsAt.bind {first rest : Option String} {k : α → ExceptT Fault Construction β}
    (one : EndsAt first m draft)
    (others : ∀ a between, Runs m draft a between → EndsAt rest (k a) between) :
    EndsAt (first.or rest) (m >>= k) draft := by
  cases first with
  | some kind =>
    obtain ⟨after, failed⟩ := one
    exact ⟨after, by rw [outcome_bind, failed]⟩
  | none =>
    obtain ⟨a, between, run⟩ := one
    have after := others a between run
    rw [Option.none_or]
    cases rest with
    | some kind =>
      obtain ⟨after, failed⟩ := after
      exact ⟨after, (outcome_bind_of_runs run).trans failed⟩
    | none => exact run.succeeds_bind after

mutual

/-- Making the nodes of a document ends at the first kind that is unknown. -/
theorem endsAt_build (document : Document) (draft : Draft) :
    EndsAt (document.kinds.find? isUnknown) document.build draft := by
  cases document with
  | node kind attributes children location =>
    rw [kinds, build]
    cases known : Kind.ofName? kind with
    | none =>
      rw [List.find?_cons_of_pos (by rw [isUnknown, known]; rfl)]
      exact ⟨draft, rfl⟩
    | some found =>
      rw [List.find?_cons_of_neg (by rw [isUnknown, known]; simp),
        ← @Option.or_none _ (List.find? _ _)]
      apply (endsAt_buildAll children draft).bind
      exact fun ids between _ => ⟨_, _, rfl⟩

theorem endsAt_buildAll (documents : List Document) (draft : Draft) :
    EndsAt ((kindsAll documents).find? isUnknown) (buildAll documents) draft := by
  cases documents with
  | nil => exact succeeds_pure [] draft
  | cons document documents =>
    rw [kindsAll, buildAll, List.find?_append]
    apply (endsAt_build document draft).bind
    intro id between _
    rw [← @Option.or_none _ (List.find? _ _)]
    apply (endsAt_buildAll documents between).bind
    exact fun ids after _ => succeeds_pure (id :: ids) after

end

theorem toTree_eq_error {document : Document} {kind : String}
    (h : EndsAt (some kind) document.build {}) : document.toTree = .error (.unknownKind kind) := by
  obtain ⟨after, failed⟩ := h
  have run : document.build.run.run {} = _ := failed
  simp only [toTree, run]

theorem exists_toTree_eq_ok {document : Document} (h : EndsAt none document.build {}) :
    ∃ tree, document.toTree = .ok tree := by
  obtain ⟨root, after, made⟩ := h
  have run : document.build.run.run {} = _ := made
  exact ⟨after.finish root, by simp only [toTree, run]⟩

end Failing

section Kinds

mutual

theorem kinds_texts (document : Document) : document.texts.kinds = document.kinds := by
  cases document with
  | node kind attributes children location => rw [texts, kinds, kinds, kindsAll_texts children]

theorem kindsAll_texts (documents : List Document) :
    kindsAll (textsAll documents) = kindsAll documents := by
  cases documents with
  | nil => rfl
  | cons document documents =>
    rw [textsAll, kindsAll, kindsAll, kinds_texts document, kindsAll_texts documents]

end

theorem length_kinds_ofTerm (t : Term) : (ofTerm t).kinds.length = t.size := by
  induction t using Term.induct with
  | step id label children ih =>
    have below : (kindsAll (ofTerms children)).length = Term.sizeAll children := by
      clear * - ih
      induction children with
      | nil => rfl
      | cons child rest again =>
        rw [List.forall_mem_cons] at ih
        rw [ofTerms, kindsAll, List.length_append, Term.sizeAll, ih.1, again ih.2]
    rw [ofTerm, kinds, List.length_cons, Term.size, below]

end Kinds
end Document

namespace Tree

/-- The nodes of a tree have their numbers in the order of a walk that comes to a node after its
children, and all links agree. -/
structure Numbered (tree : Tree) : Prop where
  order : tree.rootTerm.postorder = List.range tree.size
  last : tree.root + 1 = tree.size
  ascending : ∀ parent, ∀ child ∈ tree.children parent, child < parent
  agree : ∀ parent child, child ∈ tree.children parent ↔ tree.parent? child = some parent
  once : ∀ id < tree.size, id ≠ tree.root →
    ∃! place : NodeId × Nat, (tree.children place.1)[place.2]? = some id
  top : tree.parent? tree.root = none ∧ ∀ parent, tree.root ∉ tree.children parent

theorem lt_size_of_node_ne {tree : Tree} {id : NodeId} (h : tree.node id ≠ default) :
    id < tree.size := by
  apply Nat.not_le.mp
  intro outside
  apply h
  rw [node, Array.getD_eq_getD_getElem?, Array.getElem?_eq_none outside, Option.getD_none]

section
variable {tree : Tree} (linked : tree.Linked)
  (order : tree.rootTerm.postorder = List.range tree.size)
include order

theorem exists_term_of_lt_size {id : NodeId} (inside : id < tree.size) :
    ∃ t ∈ tree.rootTerm :: tree.rootTerm.descendants, t.id = id := by
  have listed : id ∈ tree.rootTerm.postorder := order ▸ List.mem_range.mpr inside
  exact List.mem_map.mp (tree.rootTerm.perm_postorder.mem_iff.mp listed)

include linked

theorem exists_child_of_mem_children {parent child : NodeId} (h : child ∈ tree.children parent) :
    ∃ p ∈ tree.rootTerm :: tree.rootTerm.descendants, p.id = parent ∧
      ∃ c ∈ p.children, c.id = child := by
  have above : parent < tree.size := by
    apply lt_size_of_node_ne
    intro absent
    rw [children, absent] at h
    cases h
  obtain ⟨p, hp, rfl⟩ := exists_term_of_lt_size order above
  rw [((linked_iff.mp linked).1 p hp).children] at h
  exact ⟨p, hp, rfl, List.mem_map.mp h⟩

theorem exists_parent_of_parent? {parent child : NodeId} (h : tree.parent? child = some parent) :
    ∃ p ∈ tree.rootTerm :: tree.rootTerm.descendants, p.id = parent ∧
      ∃ c ∈ p.children, c.id = child := by
  have inside : child < tree.size := by
    apply lt_size_of_node_ne
    intro absent
    rw [parent?, absent] at h
    cases h
  obtain ⟨c, hc, rfl⟩ := exists_term_of_lt_size order inside
  obtain ⟨stored, ⟨-, orphan⟩, -⟩ := linked_iff.mp linked
  rcases List.mem_cons.mp hc with rfl | hc
  · rw [orphan] at h
    cases h
  · obtain ⟨p, hp, hchild⟩ := Term.exists_parent_of_mem_descendants hc
    have same := (stored p hp).parents c hchild
    exact ⟨p, hp, Option.some.inj (same.symm.trans h), c, hchild, rfl⟩

theorem mem_children_iff_parent? (parent child : NodeId) :
    child ∈ tree.children parent ↔ tree.parent? child = some parent := by
  constructor
  · intro h
    obtain ⟨p, hp, rfl, c, hc, rfl⟩ := exists_child_of_mem_children linked order h
    exact (linked.placed hp hc).linked
  · intro h
    obtain ⟨p, hp, rfl, c, hc, rfl⟩ := exists_parent_of_parent? linked order h
    exact (linked.placed hp hc).listed

theorem numbered_of_postorder : tree.Numbered := by
  obtain ⟨-, ⟨root, orphan⟩, -⟩ := linked_iff.mp linked
  have agree := mem_children_iff_parent? linked order
  refine ⟨order, ?_, ?_, agree, ?_, ?_⟩
  · cases whole : tree.rootTerm with
    | node id label children =>
      have ending := order
      rw [whole, Term.postorder_node] at ending
      cases count : tree.size with
      | zero => simp [count] at ending
      | succ n =>
        rw [count, List.range_succ] at ending
        have same := List.singleton_inj.mp (List.append_inj' ending rfl).2
        rw [root, whole]
        exact congrArg (· + 1) same
  · intro parent child h
    obtain ⟨p, hp, rfl, c, hc, rfl⟩ := exists_child_of_mem_children linked order h
    exact Term.child_lt_of_pairwise (order ▸ List.pairwise_lt_range) hp hc
  · intro id inside below
    obtain ⟨c, hc, rfl⟩ := exists_term_of_lt_size order inside
    have hc := (List.mem_cons.mp hc).resolve_left fun e => below (e ▸ root.symm)
    obtain ⟨p, hp, hchild⟩ := Term.exists_parent_of_mem_descendants hc
    have placed := linked.placed hp hchild
    obtain ⟨slot, stands⟩ := List.getElem?_of_mem placed.listed
    refine ⟨(p.id, slot), stands, ?_⟩
    rintro ⟨other, place⟩ again
    have parent := (agree other c.id).mp (List.mem_of_getElem? again)
    obtain rfl : p.id = other := Option.some.inj (placed.linked.symm.trans parent)
    have within := (List.getElem?_eq_some_iff.mp stands).1
    have same := (List.getElem?_inj within placed.once).mp (stands.trans again.symm)
    rw [same]
  · have top : tree.parent? tree.root = none := root ▸ orphan
    refine ⟨top, fun parent listed => ?_⟩
    rw [agree, top] at listed
    cases listed

end
end Tree

/-- A document has a tree if it names known kinds only, and else the first name that is unknown is
what is wrong with it. The tree has a node for each of the document, numbered and linked from the
leaves up, and from its root it reads as the document with texts for its attributes. -/
theorem Document.toTree_numbered (document : Document) :
    match document.kinds.find? isUnknown with
    | some kind => document.toTree = .error (.unknownKind kind)
    | none => ∃ tree, document.toTree = .ok tree ∧ tree.size = document.kinds.length ∧
        tree.Numbered ∧ ofTerm tree.rootTerm = document.texts := by
  have ends := endsAt_build document {}
  cases first : document.kinds.find? isUnknown with
  | some kind =>
    rw [first] at ends
    exact toTree_eq_error ends
  | none =>
    rw [first] at ends
    obtain ⟨tree, made⟩ := exists_toTree_eq_ok ends
    obtain ⟨t, shown, same, order⟩ := shows_of_toTree made
    have whole : tree.rootTerm = t := shown.rootTerm_eq
    rw [← whole] at same order
    have count := length_kinds_ofTerm tree.rootTerm
    rw [same, kinds_texts, ← Term.length_ids, ← (Term.perm_postorder _).length_eq, order,
      List.length_range] at count
    exact ⟨tree, made, count.symm, Tree.numbered_of_postorder shown.linked order, same⟩

end ClassCompiler
