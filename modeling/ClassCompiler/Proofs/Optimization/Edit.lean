import ClassCompiler.Optimization.Edit
import ClassCompiler.Proofs.Syntax.Context

/-! A literal put into the place of a node: the tree then shows the literal in the context
in which it showed the node. -/

namespace ClassCompiler
set_option autoImplicit false

def Known.leaf (literal : Known) (id : NodeId) (location : Location) : Term :=
  .node id ⟨literal.kind, NameMap.ofList [("value", literal.value)], location⟩ []

@[simp] theorem Known.kind_leaf (literal : Known) (id : NodeId) (location : Location) :
    (literal.leaf id location).kind = literal.kind := rfl

@[simp] theorem Known.attr?_leaf (literal : Known) (id : NodeId) (location : Location) :
    (literal.leaf id location).attr? "value" = some literal.value := rfl

namespace Tree

theorem findIdx?_middle {before after : List NodeId} {old : NodeId} (h : old ∉ before) :
    (before ++ old :: after).findIdx? (· == old) = some before.length := by
  induction before with
  | nil => simp [List.findIdx?_cons]
  | cons head tail ih =>
    obtain ⟨differs, absent⟩ := not_or.mp (mt List.mem_cons.mpr h)
    simp [List.findIdx?_cons, Ne.symm differs, ih absent]

theorem node_of_modify_eq {tree changed : Tree} {id : NodeId} {change : Node → Node}
    (h : tree.modify id change = changed) (inside : id < tree.size) (other : NodeId) :
    changed.node other = if other = id then change (tree.node id) else tree.node other :=
  h ▸ node_modify tree id change inside other

/-- What a literal put into the place of a node does to the nodes. -/
theorem putLiteral_eq_ok {tree after : Tree} {old new : NodeId} {literal : Known}
    (h : tree.putLiteral old literal = (.ok new, after)) (inside : old < tree.size)
    {parent : NodeId} (hparent : tree.parent? old = some parent) (above : parent < tree.size)
    (apart : parent ≠ old) :
    ∃ slot, (tree.children parent).findIdx? (· == old) = some slot ∧ new = tree.size ∧
      after.size = tree.size + 1 ∧ after.root = tree.root ∧
      after.node tree.size =
        ⟨(literal.leaf new (tree.node old).label.location).label, [], some parent⟩ ∧
      after.node old = { tree.node old with parent := none } ∧
      after.node parent =
        { tree.node parent with children := (tree.children parent).set slot new } ∧
      ∀ i < tree.size, i ≠ old → i ≠ parent → after.node i = tree.node i := by
  simp only [putLiteral] at h
  generalize hnode : ({ label := _ } : Node) = added at h
  have grown : ∀ i < tree.size, (tree.add added).1.node i = tree.node i := by
    intro i hi
    rw [node_add, if_neg (Nat.ne_of_lt hi)]
  split at h
  · rename_i replaced hreplaced
    cases h
    obtain ⟨parent', slot, hparent', hslot, hafter⟩ := replace_eq_ok hreplaced
    have same : (tree.add added).1.parent? old = tree.parent? old := by
      simp only [parent?, grown old inside]
    obtain rfl : parent = parent' := by
      rw [same, hparent] at hparent'
      exact Option.some.inj hparent'
    have listed : (tree.add added).1.children parent = tree.children parent := by
      simp only [children, grown parent above]
    simp only [indexInParent?, same, hparent, Option.bind_eq_bind, Option.bind_some, listed]
      at hslot
    have hp : parent < (tree.add added).1.size := by simpa using Nat.lt_succ_of_lt above
    have ho : old < (tree.add added).1.size := by simpa using Nat.lt_succ_of_lt inside
    have newOld : tree.size ≠ old := Nat.ne_of_gt inside
    have newParent : tree.size ≠ parent := Nat.ne_of_gt above
    have size : after.size = tree.size + 1 := by simp [hafter]
    have root : after.root = tree.root := by rw [hafter]; rfl
    -- The parent is changed first, then the new node and then the old one.
    generalize hlisting : (tree.add added).1.modify parent _ = listing at hafter
    generalize hlinking : listing.modify (tree.add added).2 _ = linking at hafter
    have atListing := node_of_modify_eq hlisting hp
    have atLinking := node_of_modify_eq hlinking (by simp [← hlisting])
    have atAfter := node_of_modify_eq hafter.symm (by simpa [← hlinking, ← hlisting] using ho)
    refine ⟨slot, hslot, rfl, size, root, ?_, ?_, ?_, ?_⟩
    · rw [atAfter, if_neg newOld, atLinking, if_pos (id_add ..).symm, atListing, id_add,
        if_neg newParent, node_add, if_pos rfl, ← hnode]
      rfl
    · rw [atAfter, if_pos rfl, atLinking, id_add, if_neg newOld.symm, atListing,
        if_neg apart.symm, grown old inside]
    · rw [atAfter, if_neg apart, atLinking, id_add, if_neg newParent.symm, atListing,
        if_pos rfl, grown parent above]
      rfl
    · intro i hi notOld notParent
      rw [atAfter, if_neg notOld, atLinking, id_add, if_neg (Nat.ne_of_lt hi), atListing,
        if_neg notParent, grown i hi]
  · cases h

/-- A node whose parent does not list it, or that has none, is not replaced; in a tree that is
the root only. -/
theorem putLiteral_root {tree after : Tree} {old new : NodeId} {literal : Known}
    (inside : old < tree.size) (orphan : tree.parent? old = none) :
    tree.putLiteral old literal ≠ (.ok new, after) := by
  intro h
  simp only [putLiteral] at h
  split at h
  · rename_i replaced hreplaced
    obtain ⟨parent, slot, hparent, _⟩ := replace_eq_ok hreplaced
    simp only [parent?, node_add, if_neg (Nat.ne_of_lt inside)] at hparent orphan
    simp [orphan] at hparent
  · cases h

theorem Shows.putLiteral {tree after : Tree} {context : Context} {term : Term} {new : NodeId}
    {literal : Known} (h : tree.Shows context term)
    (put : tree.putLiteral term.id literal = (.ok new, after)) :
    after.Shows context (literal.leaf new term.location) := by
  have inside := h.inside
  have termInside : term.id < tree.size :=
    inside _ (List.mem_append_left _ term.id_mem_ids)
  cases context with
  | hole => exact absurd put (putLiteral_root termInside h.stored.2)
  | under outer parent label before later =>
    obtain ⟨hlabel, hchildren, hparent, siblings, above⟩ := h.stored
    obtain ⟨_, ctxDistinct, apart⟩ := List.nodup_append.mp h.distinct
    have beside : ∀ t ∈ before ++ later, ∀ i ∈ t.ids,
        i ∈ before.flatMap Term.ids ++ later.flatMap Term.ids := by
      intro t ht i hi
      rcases List.mem_append.mp ht with ht | ht
      · exact List.mem_append_left _ (List.mem_flatMap.mpr ⟨t, ht, hi⟩)
      · exact List.mem_append_right _ (List.mem_flatMap.mpr ⟨t, ht, hi⟩)
    have parentMem : parent ∈ (Context.under outer parent label before later).ids := by
      simp [Context.ids]
    have parentInside : parent < tree.size := inside _ (List.mem_append_right _ parentMem)
    have parentApart : parent ≠ term.id := fun e =>
      apart _ term.id_mem_ids _ parentMem e.symm
    obtain ⟨slot, hslot, rfl, size, root, newNode, _, parentNode, others⟩ :=
      putLiteral_eq_ok put termInside hparent parentInside parentApart
    have unlisted : term.id ∉ before.map Term.id := by
      intro hmem
      obtain ⟨t, ht, e⟩ := List.mem_map.mp hmem
      have := beside t (List.mem_append_left _ ht) _ t.id_mem_ids
      refine apart _ term.id_mem_ids t.id ?_ e.symm
      exact List.mem_append_left _ this
    rw [hchildren, findIdx?_middle unlisted] at hslot
    cases hslot
    have located : (tree.node term.id).label.location = term.location := by
      rw [h.holds.stores.label]
      rfl
    rw [located] at newNode
    obtain ⟨sideDistinct, spineDistinct, sideApart⟩ := List.nodup_append.mp ctxDistinct
    -- Apart from the parent, no node of the context is changed.
    have kept : ∀ i ∈ (Context.under outer parent label before later).ids, i ≠ parent →
        after.node i = tree.node i := by
      intro i hi notParent
      refine others i (inside i (List.mem_append_right _ hi)) ?_ notParent
      exact fun e => apart _ term.id_mem_ids _ hi e.symm
    refine ⟨?_, ⟨?_, ?_, ?_, ?_, ?_⟩, ?_, ?_⟩
    · refine holds_node_iff.mpr ⟨⟨?_, ?_, ?_⟩, ?_⟩
      · simp [Term.id, newNode, Term.label, Known.leaf]
      · simp [Term.id, children, newNode, Term.children]
      · simp [Term.children]
      · simp
    · rw [parentNode]
      exact hlabel
    · rw [hchildren] at parentNode
      simp [children, parentNode, Known.leaf, Term.id]
    · simp [parent?, newNode, Known.leaf, Term.id]
    · intro t ht
      have same : ∀ i ∈ t.ids, after.node i = tree.node i := by
        intro i hi
        have listed := beside t ht i hi
        exact kept i (List.mem_append_left _ listed) fun e =>
          sideApart i listed parent List.mem_cons_self e
      refine ⟨?_, (siblings t ht).2.congr same⟩
      simp only [parent?, same _ t.id_mem_ids]
      exact (siblings t ht).1
    · refine above.congr root ?_ ?_
      · simp [parent?, parentNode]
      · intro i hi
        refine kept i (List.mem_append_right _ (List.mem_cons_of_mem _ hi)) ?_
        exact fun e => (List.nodup_cons.mp spineDistinct).1 (e ▸ hi)
    · have fresh : tree.size ∉ (Context.under outer parent label before later).ids := fun hi =>
        Nat.lt_irrefl _ (inside _ (List.mem_append_right _ hi))
      simpa [Known.leaf, Term.ids_node, fresh] using ctxDistinct
    · intro i hi
      rw [size]
      rcases List.mem_append.mp hi with hi | hi
      · obtain rfl : i = tree.size := by simpa [Known.leaf, Term.ids_node] using hi
        exact Nat.lt_succ_self _
      · exact Nat.lt_succ_of_lt (inside i (List.mem_append_right _ hi))

/-- A literal put into the place of a node leaves every term that neither contains the node nor
is below it. -/
theorem Shows.exists_shows_of_putLiteral {tree after : Tree} {context context' : Context}
    {term other : Term} {new : NodeId} {literal : Known} (h : tree.Shows context term)
    (put : tree.putLiteral term.id literal = (.ok new, after)) (h' : tree.Shows context' other)
    (notBelow : other.id ∉ term.ids) (notAbove : term.id ∉ other.ids) :
    ∃ context'', after.Shows context'' other := by
  have same : (context.plug term).ids = (context'.plug other).ids := by
    rw [← h.rootTerm_eq, ← h'.rootTerm_eq]
  have around : other.id ∈ context.ids := by
    have mem : other.id ∈ (context.plug term).ids :=
      same ▸ (Context.perm_ids_plug context' other).mem_iff.mp
        (List.mem_append_left _ other.id_mem_ids)
    exact (List.mem_append.mp ((Context.perm_ids_plug context term).mem_iff.mpr mem)).resolve_left
      notBelow
  have whole := shows_iff_shows_plug.mp (h.putLiteral put)
  obtain ⟨below, hbelow, hid⟩ : ∃ below ∈ context.plug (literal.leaf new term.location) ::
      (context.plug (literal.leaf new term.location)).descendants, below.id = other.id := by
    refine List.mem_map.mp ?_
    exact (Context.perm_ids_plug context _).mem_iff.mp (List.mem_append_right _ around)
  obtain ⟨context'', shown⟩ := whole.exists_of_mem hbelow
  refine ⟨context'', ?_⟩
  -- The nodes of the other term are as they were, so that this is what stands there.
  have termInside : term.id < tree.size := h.inside _ (List.mem_append_left _ term.id_mem_ids)
  cases context with
  | hole => exact absurd put (putLiteral_root termInside h.stored.2)
  | under outer parent label before later =>
    obtain ⟨_, hchildren, hparent, _, _⟩ := h.stored
    have parentMem : parent ∈ (Context.under outer parent label before later).ids := by
      simp [Context.ids]
    have parentApart : parent ≠ term.id := fun e =>
      (List.nodup_append.mp h.distinct).2.2 _ term.id_mem_ids _ parentMem e.symm
    obtain ⟨_, _, _, size, _, _, _, _, others⟩ := putLiteral_eq_ok put termInside hparent
      (h.inside _ (List.mem_append_right _ parentMem)) parentApart
    have kept : ∀ i ∈ other.ids, after.node i = tree.node i := by
      intro i hi
      refine others i (h'.inside i (List.mem_append_left _ hi)) ?_ ?_
      · rintro rfl
        exact notAbove hi
      · rintro rfl
        obtain ⟨u, hu, rfl⟩ := List.mem_map.mp hi
        have listed : term.id ∈ u.children.map Term.id := by
          rw [← (h'.holds u hu).children, hchildren]
          simp
        obtain ⟨child, hc, hchild⟩ := List.mem_map.mp listed
        refine notAbove (hchild ▸ Term.ids_subset_of_mem hu ?_)
        cases u with
        | node j l children =>
          rw [Term.ids_node]
          exact List.mem_cons_of_mem _ (List.mem_flatMap.mpr ⟨child, hc, child.id_mem_ids⟩)
    have fits : other.size ≤ after.size + 1 := by
      have := h'.size_le
      omega
    have equal : below = other := by
      rw [← shown.term_eq, hid]
      exact (h'.holds.congr kept).unfold_eq fits
    exact equal ▸ shown

end Tree
end ClassCompiler
