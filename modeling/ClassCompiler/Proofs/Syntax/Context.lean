import ClassCompiler.Proofs.Syntax.Unfolding

/-! Terms in their place. A tree shows a term in a context when its nodes are the nodes of
both, each of them once and with the right parent. What is done to a tree at one node is then
a change of the term in a context that stays. -/

namespace ClassCompiler
set_option autoImplicit false

/-- A term with a hole: what is above and beside a place in a term. -/
inductive Context where
  | hole
  | under (outer : Context) (id : NodeId) (label : Label) (before after : List Term)

namespace Context

def plug : Context → Term → Term
  | hole, term => term
  | under outer id label before after, term => outer.plug (.node id label (before ++ term :: after))

def ids : Context → List NodeId
  | hole => []
  | under outer id _ before after =>
    before.flatMap Term.ids ++ after.flatMap Term.ids ++ id :: outer.ids

theorem perm_ids_under (outer : Context) (id : NodeId) (label : Label) (before after : List Term)
    (term : Term) :
    (term.ids ++ (Context.under outer id label before after).ids).Perm
      ((Term.node id label (before ++ term :: after)).ids ++ outer.ids) := by
  rw [Term.ids_node, Context.ids, List.flatMap_append, List.flatMap_cons]
  rw [List.perm_iff_count]
  intro i
  simp only [List.count_append, List.count_cons]
  omega

/-- The nodes of a term are those of a part of it and those around that. -/
theorem perm_ids_plug (context : Context) (term : Term) :
    (term.ids ++ context.ids).Perm (context.plug term).ids := by
  induction context generalizing term with
  | hole => simp [ids, plug]
  | under outer id label before after ih =>
    exact (perm_ids_under outer id label before after term).trans (ih _)

end Context

namespace Tree

/-- A tree stores a term at its number, and its children know whose they are. -/
structure Stores (tree : Tree) (term : Term) : Prop where
  label : (tree.node term.id).label = term.label
  children : tree.children term.id = term.children.map Term.id
  parents : ∀ child ∈ term.children, tree.parent? child.id = some term.id

instance (tree : Tree) (term : Term) : Decidable (tree.Stores term) :=
  decidable_of_iff ((tree.node term.id).label = term.label ∧
      tree.children term.id = term.children.map Term.id ∧
      ∀ child ∈ term.children, tree.parent? child.id = some term.id)
    ⟨fun ⟨a, b, c⟩ => ⟨a, b, c⟩, fun ⟨a, b, c⟩ => ⟨a, b, c⟩⟩

def Holds (tree : Tree) (term : Term) : Prop := ∀ t ∈ term :: term.descendants, tree.Stores t

theorem holds_node_iff {tree : Tree} {id : NodeId} {label : Label} {children : List Term} :
    tree.Holds (.node id label children) ↔
      tree.Stores (.node id label children) ∧ ∀ child ∈ children, tree.Holds child := by
  rw [Holds, List.forall_mem_cons, Term.descendants_eq_flatMap, List.forall_mem_flatMap]
  rfl

theorem Stores.kind_eq {tree : Tree} {term : Term} (h : tree.Stores term) :
    tree.kind term.id = term.kind := by
  simp only [kind, Term.kind, h.label]

theorem Stores.attr?_eq {tree : Tree} {term : Term} (h : tree.Stores term) (key : String) :
    tree.attr? term.id key = term.attr? key := by
  simp only [attr?, Term.attr?, h.label]

theorem Stores.requireAttr_eq_ok {tree : Tree} {term : Term} (h : tree.Stores term)
    {key value : String} : tree.requireAttr term.id key = .ok value ↔ term.attr? key = some value := by
  unfold requireAttr
  rw [h.attr?_eq]
  cases term.attr? key <;> simp

theorem Stores.child_eq_ok {tree : Tree} {term : Term} (h : tree.Stores term) {index : Nat}
    {id : NodeId} : tree.child term.id index = .ok id ↔
      ∃ child, term.children[index]? = some child ∧ child.id = id := by
  unfold Tree.child
  rw [h.children, List.getElem?_map]
  cases term.children[index]? <;> simp

theorem Holds.stores {tree : Tree} {term : Term} (h : tree.Holds term) : tree.Stores term :=
  h _ List.mem_cons_self

theorem Holds.parent_of_mem_ids {tree : Tree} {term : Term} {id : NodeId} (h : tree.Holds term)
    (hid : id ∈ term.ids) (apart : id ≠ term.id) :
    ∃ t ∈ term :: term.descendants, tree.parent? id = some t.id := by
  induction term using Term.induct with
  | step i label children ih =>
    obtain ⟨stored, below⟩ := holds_node_iff.mp h
    rw [Term.ids_node] at hid
    obtain ⟨child, hc, hid⟩ := List.mem_flatMap.mp ((List.mem_cons.mp hid).resolve_left apart)
    by_cases own : id = child.id
    · exact ⟨_, List.mem_cons_self, own ▸ stored.parents child hc⟩
    · obtain ⟨t, ht, hparent⟩ := ih child hc (below child hc) hid own
      exact ⟨t, List.mem_cons_of_mem _ (Term.mem_descendants_of_child hc ht), hparent⟩

theorem Stores.spells {tree : Tree} {term : Term} (h : tree.Stores term) : tree.Spells term :=
  ⟨h.label, h.children⟩

/-- A term that a tree holds is what the tree unfolds to, given a depth that is great
enough. -/
theorem Holds.unfold_eq {tree : Tree} {term : Term} (h : tree.Holds term) {depth : Nat}
    (deep : term.size ≤ depth + 1) : tree.unfold depth term.id = term :=
  unfold_eq_of_spells (fun t ht => (h t ht).spells) (Nat.le_trans term.height_le_size deep)

theorem Holds.congr {tree other : Tree} {term : Term} (h : tree.Holds term)
    (same : ∀ id ∈ term.ids, other.node id = tree.node id) : other.Holds term := by
  intro t ht
  have stored := h t ht
  have inside := Term.ids_subset_of_mem ht
  have own : other.node t.id = tree.node t.id := same _ (inside t.id_mem_ids)
  refine ⟨?_, ?_, ?_⟩
  · rw [own, stored.label]
  · simp only [children, own]
    exact stored.children
  · intro child hc
    have listed : child.id ∈ t.ids := by
      cases t with
      | node i label children =>
        rw [Term.ids_node]
        exact List.mem_cons_of_mem _ (List.mem_flatMap.mpr ⟨child, hc, child.id_mem_ids⟩)
    simp only [parent?, same _ (inside listed)]
    exact stored.parents child hc

/-- A term stays what it is when its topmost node is put below another one. -/
theorem Holds.adopted {tree other : Tree} {term : Term} {parent : Option NodeId}
    (h : tree.Holds term) (distinct : term.ids.Nodup)
    (top : other.node term.id = { tree.node term.id with parent })
    (same : ∀ i ∈ term.ids, i ≠ term.id → other.node i = tree.node i) : other.Holds term := by
  cases term with
  | node id label below =>
    obtain ⟨stored, inside⟩ := holds_node_iff.mp h
    rw [Term.ids_node] at distinct same
    have apart : ∀ child ∈ below, ∀ i ∈ child.ids, other.node i = tree.node i := by
      intro child hc i hi
      have mem : i ∈ below.flatMap Term.ids := List.mem_flatMap.mpr ⟨child, hc, hi⟩
      refine same i (List.mem_cons_of_mem _ mem) ?_
      rintro rfl
      exact (List.nodup_cons.mp distinct).1 mem
    refine holds_node_iff.mpr ⟨⟨?_, ?_, ?_⟩, fun child hc => (inside child hc).congr (apart child hc)⟩
    · rw [top]
      exact stored.label
    · rw [Tree.children, top]
      exact stored.children
    · intro child hc
      rw [parent?, apart child hc _ child.id_mem_ids]
      exact stored.parents child hc

end Tree

namespace Context

def Stored (tree : Tree) : Context → NodeId → Prop
  | hole, focus => tree.root = focus ∧ tree.parent? focus = none
  | under outer id label before after, focus =>
    (tree.node id).label = label ∧
    tree.children id = before.map Term.id ++ focus :: after.map Term.id ∧
    tree.parent? focus = some id ∧
    (∀ t ∈ before ++ after, tree.parent? t.id = some id ∧ tree.Holds t) ∧
    outer.Stored tree id

theorem Stored.congr {tree other : Tree} {context : Context} {focus : NodeId}
    (h : context.Stored tree focus) (root : other.root = tree.root)
    (parent : other.parent? focus = tree.parent? focus)
    (same : ∀ id ∈ context.ids, other.node id = tree.node id) : context.Stored other focus := by
  induction context generalizing focus with
  | hole => exact ⟨root.trans h.1, parent.trans h.2⟩
  | under outer id label before after ih =>
    obtain ⟨hlabel, hchildren, hparent, siblings, above⟩ := h
    simp only [ids, List.mem_append, List.mem_flatMap, List.mem_cons] at same
    have own : other.node id = tree.node id := same id (.inr (.inl rfl))
    have beside : ∀ t ∈ before ++ after, ∀ i ∈ t.ids, other.node i = tree.node i := by
      intro t ht i hi
      rcases List.mem_append.mp ht with ht | ht
      · exact same i (.inl (.inl ⟨t, ht, hi⟩))
      · exact same i (.inl (.inr ⟨t, ht, hi⟩))
    refine ⟨own ▸ hlabel, ?_, parent.trans hparent, ?_, ?_⟩
    · simpa only [Tree.children, own] using hchildren
    · intro t ht
      refine ⟨?_, (siblings t ht).2.congr (beside t ht)⟩
      have listed := (siblings t ht).1
      simpa only [Tree.parent?, beside t ht t.id t.id_mem_ids] using listed
    · refine ih above ?_ fun i hi => same i (.inr (.inr hi))
      simp only [Tree.parent?, own]

end Context

namespace Tree

/-- A tree shows a term in a context: its nodes are the nodes of both, and these are
different from each other. -/
structure Shows (tree : Tree) (context : Context) (term : Term) : Prop where
  holds : tree.Holds term
  stored : context.Stored tree term.id
  distinct : (term.ids ++ context.ids).Nodup
  inside : ∀ id ∈ term.ids ++ context.ids, id < tree.size

theorem shows_under_iff {tree : Tree} {outer : Context} {id : NodeId} {label : Label}
    {before after : List Term} {term : Term} :
    tree.Shows (.under outer id label before after) term ↔
      tree.Shows outer (.node id label (before ++ term :: after)) := by
  have perm := Context.perm_ids_under outer id label before after term
  constructor
  · intro h
    obtain ⟨hlabel, hchildren, hparent, siblings, above⟩ := h.stored
    refine ⟨holds_node_iff.mpr ⟨⟨hlabel, ?_, ?_⟩, ?_⟩, above, perm.nodup_iff.mp h.distinct, ?_⟩
    · simpa [Term.children, Term.id] using hchildren
    · intro child hc
      simp only [Term.children, List.mem_append, List.mem_cons] at hc
      rcases hc with hc | rfl | hc
      · exact (siblings child (List.mem_append_left _ hc)).1
      · exact hparent
      · exact (siblings child (List.mem_append_right _ hc)).1
    · intro child hc
      simp only [List.mem_append, List.mem_cons] at hc
      rcases hc with hc | rfl | hc
      · exact (siblings child (List.mem_append_left _ hc)).2
      · exact h.holds
      · exact (siblings child (List.mem_append_right _ hc)).2
    · intro i hi
      exact h.inside i (perm.mem_iff.mpr hi)
  · intro h
    obtain ⟨stored, below⟩ := holds_node_iff.mp h.holds
    have mem : ∀ t ∈ before ++ after, t ∈ before ++ term :: after := by
      intro t ht
      rcases List.mem_append.mp ht with ht | ht
      · exact List.mem_append_left _ ht
      · exact List.mem_append_right _ (List.mem_cons_of_mem _ ht)
    have focus : term ∈ before ++ term :: after :=
      List.mem_append_right _ List.mem_cons_self
    refine ⟨below term focus, ⟨stored.label, ?_, stored.parents term focus, ?_, h.stored⟩,
      perm.nodup_iff.mpr h.distinct, ?_⟩
    · simpa [Term.children, Term.id] using stored.children
    · intro t ht
      exact ⟨stored.parents t (mem t ht), below t (mem t ht)⟩
    · intro i hi
      exact h.inside i (perm.mem_iff.mp hi)

theorem shows_iff_shows_plug {tree : Tree} {context : Context} {term : Term} :
    tree.Shows context term ↔ tree.Shows .hole (context.plug term) := by
  induction context generalizing term with
  | hole => rfl
  | under outer id label before after ih => exact shows_under_iff.trans ih

theorem Shows.size_le {tree : Tree} {context : Context} {term : Term}
    (h : tree.Shows context term) : term.size ≤ tree.size := by
  rw [← term.length_ids]
  exact length_le_size (List.nodup_append.mp h.distinct).1
    fun i hi => h.inside i (List.mem_append_left _ hi)

theorem Shows.term_eq {tree : Tree} {context : Context} {term : Term}
    (h : tree.Shows context term) : tree.term term.id = term :=
  h.holds.unfold_eq (Nat.le_succ_of_le h.size_le)

theorem Shows.rootTerm_eq {tree : Tree} {context : Context} {term : Term}
    (h : tree.Shows context term) : tree.rootTerm = context.plug term := by
  have whole := shows_iff_shows_plug.mp h
  have root : tree.root = (context.plug term).id := whole.stored.1
  rw [rootTerm, root]
  exact whole.term_eq

/-- The nodes that are reached from the root of a tree are those of one term: each of them is
reached once, and from its parent. -/
def Linked (tree : Tree) : Prop := tree.Shows .hole tree.rootTerm

theorem Shows.linked {tree : Tree} {context : Context} {term : Term}
    (h : tree.Shows context term) : tree.Linked := by
  rw [Linked, h.rootTerm_eq]
  exact shows_iff_shows_plug.mp h

/-- Every term below one that a tree shows stands in a context of its own. -/
theorem Shows.exists_of_mem {tree : Tree} {context : Context} {term below : Term}
    (h : tree.Shows context term) (hbelow : below ∈ term :: term.descendants) :
    ∃ context', tree.Shows context' below := by
  induction term using Term.induct generalizing context with
  | step i label children ih =>
    rcases List.mem_cons.mp hbelow with rfl | hbelow
    · exact ⟨context, h⟩
    · rw [Term.descendants_eq_flatMap] at hbelow
      obtain ⟨child, hc, inside⟩ := List.mem_flatMap.mp hbelow
      obtain ⟨before, after, rfl⟩ := List.append_of_mem hc
      exact ih child hc (shows_under_iff.mpr h) inside

/-- The parent of a node lists it, and lists nothing twice. -/
structure Placed (tree : Tree) (parent id : NodeId) : Prop where
  linked : tree.parent? id = some parent
  apart : parent ≠ id
  listed : id ∈ tree.children parent
  once : (tree.children parent).Nodup
  inside : id < tree.size
  above : parent < tree.size

theorem Linked.placed {tree : Tree} {parent child : Term} (linked : tree.Linked)
    (hparent : parent ∈ tree.rootTerm :: tree.rootTerm.descendants)
    (hchild : child ∈ parent.children) : tree.Placed parent.id child.id := by
  obtain ⟨context, shown⟩ := Shows.exists_of_mem linked hparent
  have stored := shown.holds.stores
  have distinct : parent.ids.Nodup := (List.nodup_append.mp shown.distinct).1
  have inside : ∀ id ∈ parent.ids, id < tree.size := fun id hid =>
    shown.inside id (List.mem_append_left _ hid)
  cases parent with
  | node id label children =>
    rw [Term.ids_node, List.nodup_cons] at distinct
    rw [Term.ids_node] at inside
    have below : child.id ∈ children.flatMap Term.ids :=
      List.mem_flatMap.mpr ⟨child, hchild, child.id_mem_ids⟩
    have listing : tree.children id = children.map Term.id := stored.children
    refine ⟨stored.parents child hchild, ?_, ?_, ?_, ?_, inside id List.mem_cons_self⟩
    · rintro rfl
      exact distinct.1 below
    · exact stored.children ▸ List.mem_map_of_mem hchild
    · exact listing ▸ distinct.2.sublist (Term.map_id_sublist_flatMap_ids children)
    · exact inside _ (List.mem_cons_of_mem _ below)

theorem linked_iff {tree : Tree} :
    tree.Linked ↔ (∀ t ∈ tree.rootTerm :: tree.rootTerm.descendants, tree.Stores t) ∧
      (tree.root = tree.rootTerm.id ∧ tree.parent? tree.rootTerm.id = none) ∧
      tree.rootTerm.ids.Nodup ∧ ∀ id ∈ tree.rootTerm.ids, id < tree.size := by
  constructor
  · intro h
    have distinct := h.distinct
    have inside := h.inside
    simp only [Context.ids, List.append_nil] at distinct inside
    exact ⟨h.holds, h.stored, distinct, inside⟩
  · rintro ⟨holds, stored, distinct, inside⟩
    refine ⟨holds, stored, ?_, ?_⟩
    · simpa [Context.ids] using distinct
    · simpa [Context.ids] using inside

theorem linked_iff_all {tree : Tree} :
    tree.Linked ↔
      (tree.rootTerm :: tree.rootTerm.descendants).all (fun t => decide (tree.Stores t)) = true ∧
      (tree.root = tree.rootTerm.id ∧ tree.parent? tree.rootTerm.id = none) ∧
      tree.rootTerm.ids.Nodup ∧ tree.rootTerm.ids.all (· < tree.size) = true := by
  simp only [linked_iff, List.all_eq_true, decide_eq_true_eq]

instance (tree : Tree) : Decidable tree.Linked := decidable_of_iff' _ linked_iff_all

end Tree
end ClassCompiler
