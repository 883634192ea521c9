import ClassCompiler.Proofs.Runs
import ClassCompiler.Proofs.Syntax.Postorder
import ClassCompiler.Syntax.Document
import ClassCompiler.Text.NameMap.Lemmas
import Mathlib.Data.List.Pairwise

/-! Trees that are read from a text are linked. A node is made after those below it, so that what
a document denotes is a term all of whose nodes are new, and only its topmost node has no parent. -/

namespace ClassCompiler
set_option autoImplicit false

namespace Draft

abbrev tree (draft : Draft) : Tree := draft.finish 0

/-- A draft after another one in which some nodes have become the last children of a node. -/
structure Attached (before after : Draft) (parent : NodeId) (children : List NodeId) : Prop where
  size : after.tree.size = before.tree.size
  top : after.tree.node parent = { before.tree.node parent with
    children := before.tree.children parent ++ children }
  child : ∀ i ∈ children, after.tree.node i = { before.tree.node i with parent := some parent }
  other : ∀ i, i ≠ parent → i ∉ children → after.tree.node i = before.tree.node i

theorem attached_one {draft : Draft} {parent child : NodeId} (top : parent < draft.tree.size)
    (inside : child < draft.tree.size) (apart : parent ≠ child) :
    Attached draft ((attach parent [child]).run draft).2 parent [child] := by
  have linked : ((attach parent [child]).run draft).2.tree =
      (draft.tree.modify child fun node => { node with parent := some parent }).modify parent
        fun node => { node with children := node.children ++ [child] } := rfl
  have node : ∀ i, ((attach parent [child]).run draft).2.tree.node i =
      if i = parent then { draft.tree.node parent with
        children := draft.tree.children parent ++ [child] }
      else if i = child then { draft.tree.node child with parent := some parent }
      else draft.tree.node i := by
    intro i
    rw [linked, Tree.node_modify _ _ _ (by simpa using top), Tree.node_modify _ _ _ inside,
      Tree.node_modify _ _ _ inside, if_neg apart]
    rfl
  refine ⟨?_, ?_, ?_, ?_⟩
  · simp [linked]
  · rw [node, if_pos rfl]
  · intro i hi
    rw [List.mem_singleton.mp hi, node, if_neg apart.symm, if_pos rfl]
  · intro i notParent notChild
    rw [node, if_neg notParent, if_neg (by simpa using notChild)]

theorem attached {draft : Draft} {parent : NodeId} {children : List NodeId}
    (top : parent < draft.tree.size) (inside : ∀ i ∈ children, i < draft.tree.size)
    (distinct : (parent :: children).Nodup) :
    Attached draft ((attach parent children).run draft).2 parent children := by
  induction children generalizing draft with
  | nil =>
    refine ⟨rfl, ?_, by simp, fun _ _ _ => rfl⟩
    rw [List.append_nil]
    rfl
  | cons first rest ih =>
    obtain ⟨fresh, distinct⟩ := List.nodup_cons.mp distinct
    obtain ⟨apart, fresh⟩ := not_or.mp (mt List.mem_cons.mpr fresh)
    obtain ⟨later, distinct⟩ := List.nodup_cons.mp distinct
    rw [List.forall_mem_cons] at inside
    have one := attached_one top inside.1 apart
    have others := ih (one.size ▸ top) (fun i hi => one.size ▸ inside.2 i hi)
      (List.nodup_cons.mpr ⟨fresh, distinct⟩)
    refine ⟨others.size.trans one.size, ?_, ?_, ?_⟩
    · refine others.top.trans ?_
      rw [Tree.children, one.top, List.append_assoc]
      rfl
    · intro i hi
      by_cases same : i = first
      · subst same
        exact (others.other i (Ne.symm apart) later).trans (one.child i List.mem_cons_self)
      · have mem := (List.mem_cons.mp hi).resolve_left same
        refine (others.child i mem).trans ?_
        rw [one.other i (fun e => fresh (e ▸ mem)) (by simpa using same)]
    · intro i notParent notListed
      obtain ⟨notFirst, notRest⟩ := not_or.mp (mt List.mem_cons.mpr notListed)
      exact (others.other i notParent notRest).trans
        (one.other i notParent (by simpa using notFirst))

/-- A draft after another one in which terms have been made. The topmost have no parent, and the
nodes are numbered on from those there were, each after those below it. -/
structure Grown (before after : Draft) (terms : List Term) : Prop where
  kept : ∀ i < before.tree.size, after.tree.node i = before.tree.node i
  holds : ∀ t ∈ terms, after.tree.Holds t
  orphans : ∀ t ∈ terms, after.tree.parent? t.id = none
  numbered : List.range before.tree.size ++ terms.flatMap Term.postorder =
    List.range after.tree.size

theorem Grown.larger {before after : Draft} {terms : List Term} (h : Grown before after terms) :
    before.tree.size ≤ after.tree.size := by
  have lengths := congrArg List.length h.numbered
  rw [List.length_append, List.length_range, List.length_range] at lengths
  omega

theorem Grown.once {before after : Draft} {terms : List Term} (h : Grown before after terms) :
    (List.range before.tree.size ++ terms.flatMap Term.postorder).Nodup := by
  rw [h.numbered]
  exact List.nodup_range

theorem perm_postorders (terms : List Term) :
    (terms.flatMap Term.postorder).Perm (terms.flatMap Term.ids) :=
  List.Perm.flatMap_left _ fun t _ => t.perm_postorder

theorem Grown.distinct {before after : Draft} {terms : List Term} (h : Grown before after terms) :
    (terms.flatMap Term.ids).Nodup :=
  (perm_postorders terms).nodup_iff.mp (List.nodup_append.mp h.once).2.1

theorem Grown.fresh {before after : Draft} {terms : List Term} (h : Grown before after terms) :
    ∀ i ∈ terms.flatMap Term.ids, before.tree.size ≤ i ∧ i < after.tree.size := by
  intro i hi
  rw [← (perm_postorders terms).mem_iff] at hi
  have listed : i ∈ List.range after.tree.size := h.numbered ▸ List.mem_append_right _ hi
  refine ⟨Nat.not_lt.mp fun early => ?_, List.mem_range.mp listed⟩
  exact (List.nodup_append.mp h.once).2.2 i (List.mem_range.mpr early) i hi rfl

theorem Grown.nil (draft : Draft) : Grown draft draft [] :=
  ⟨fun _ _ => rfl, by simp, by simp, by simp⟩

theorem Grown.cons {first second third : Draft} {t : Term} {ts : List Term}
    (one : Grown first second [t]) (others : Grown second third ts) :
    Grown first third (t :: ts) := by
  have fresh := one.fresh
  have numbered := one.numbered
  simp only [List.flatMap_cons, List.flatMap_nil, List.append_nil] at fresh numbered
  have same : ∀ i ∈ t.ids, third.tree.node i = second.tree.node i := fun i hi =>
    others.kept i (fresh i hi).2
  refine ⟨?_, ?_, ?_, ?_⟩
  · intro i hi
    exact (others.kept i (Nat.lt_of_lt_of_le hi one.larger)).trans (one.kept i hi)
  · exact List.forall_mem_cons.mpr ⟨(one.holds t List.mem_cons_self).congr same, others.holds⟩
  · refine List.forall_mem_cons.mpr ⟨?_, others.orphans⟩
    rw [Tree.parent?, same _ t.id_mem_ids]
    exact one.orphans t List.mem_cons_self
  · rw [List.flatMap_cons, ← List.append_assoc, numbered, others.numbered]

/-- A node that is made with some terms below it is a term. -/
theorem Grown.make {before between : Draft} {terms : List Term} (h : Grown before between terms)
    (kind : Kind) (location : Location) (attrs : List (String × String)) :
    Grown before ((make kind location attrs (terms.map Term.id)).run between).2
      [.node between.tree.size ⟨kind, NameMap.ofList attrs, location⟩ terms] := by
  let label : Label := { kind, attrs := NameMap.ofList attrs, location }
  let added : Draft := ⟨between.nodes.push { label }⟩
  have size : added.tree.size = between.tree.size + 1 := Tree.size_add between.tree { label }
  have node : ∀ i, added.tree.node i =
      if i = between.tree.size then { label } else between.tree.node i :=
    Tree.node_add between.tree { label }
  have inside : ∀ t ∈ terms, ∀ i ∈ t.ids, i ∈ terms.flatMap Term.ids := fun t ht i hi =>
    List.mem_flatMap.mpr ⟨t, ht, hi⟩
  have below : ∀ i ∈ terms.flatMap Term.ids, i < between.tree.size := fun i hi => (h.fresh i hi).2
  have listed : ∀ i ∈ terms.map Term.id, i ∈ terms.flatMap Term.ids := by
    intro i hi
    obtain ⟨t, ht, rfl⟩ := List.mem_map.mp hi
    exact inside t ht _ t.id_mem_ids
  have new : between.tree.size ∉ terms.flatMap Term.ids := fun hi => Nat.lt_irrefl _ (below _ hi)
  -- The new node is added without links, and then its children are put below it.
  have attached : Attached added ((attach between.tree.size (terms.map Term.id)).run added).2
      between.tree.size (terms.map Term.id) := by
    refine Draft.attached (size ▸ Nat.lt_succ_self _) (fun i hi => ?_) ?_
    · rw [size]
      exact Nat.lt_succ_of_lt (below i (listed i hi))
    · have tops := h.distinct.sublist (Term.map_id_sublist_flatMap_ids terms)
      exact List.nodup_cons.mpr ⟨fun hi => new (listed _ hi), tops⟩
  change Grown before ((attach between.tree.size (terms.map Term.id)).run added).2 _
  generalize ((attach between.tree.size (terms.map Term.id)).run added).2 = after at attached
  have top : after.tree.node between.tree.size = ⟨label, terms.map Term.id, none⟩ := by
    rw [attached.top, Tree.children, node, if_pos rfl]
    rfl
  have tops : ∀ t ∈ terms, after.tree.node t.id =
      { between.tree.node t.id with parent := some between.tree.size } := by
    intro t ht
    have differs : t.id ≠ between.tree.size := fun e => new (e ▸ listed _ (List.mem_map_of_mem ht))
    rw [attached.child t.id (List.mem_map_of_mem ht), node, if_neg differs]
  have others : ∀ i, i ≠ between.tree.size → i ∉ terms.map Term.id →
      after.tree.node i = between.tree.node i := by
    intro i differs unlisted
    rw [attached.other i differs unlisted, node, if_neg differs]
  refine ⟨?_, ?_, ?_, ?_⟩
  · intro i hi
    rw [← h.kept i hi]
    refine others i (Nat.ne_of_lt (Nat.lt_of_lt_of_le hi h.larger)) fun hlisted => ?_
    exact Nat.lt_irrefl _ (Nat.lt_of_lt_of_le hi (h.fresh i (listed i hlisted)).1)
  · intro t ht
    rw [List.mem_singleton.mp ht]
    refine Tree.holds_node_iff.mpr ⟨⟨?_, ?_, ?_⟩, ?_⟩
    · exact congrArg Node.label top
    · exact congrArg Node.children top
    · intro child hc
      exact congrArg Node.parent (tops child hc)
    · intro child hc
      have own := (List.nodup_flatMap.mp h.distinct).1 child hc
      refine (h.holds child hc).adopted own (tops child hc) fun i hi lower => others i ?_ ?_
      · exact fun e => new (e ▸ inside child hc i hi)
      · intro hlisted
        obtain ⟨t, ht, rfl⟩ := List.mem_map.mp hlisted
        have apart : t ≠ child := fun e => lower (e ▸ rfl)
        have symm : Std.Symm (Function.onFun List.Disjoint Term.ids) := ⟨fun _ _ h _ hi hj => h hj hi⟩
        exact (List.nodup_flatMap.mp h.distinct).2.forall ht hc apart t.id_mem_ids hi
  · intro t ht
    rw [List.mem_singleton.mp ht]
    exact congrArg Node.parent top
  · rw [List.flatMap_singleton, Term.postorder_node, ← List.append_assoc, h.numbered,
      attached.size, size]
    exact List.range_succ.symm

end Draft

namespace Document
open Draft (Grown)

mutual

/-- A document with every attribute as the text under which a tree keeps it. -/
def texts : Document → Document
  | .node kind attributes children location =>
    .node kind (attributes.mapValues fun _ value => .text value.toText) (textsAll children) location

def textsAll : List Document → List Document
  | [] => []
  | document :: documents => document.texts :: textsAll documents

end

mutual

/-- What a document denotes is a term of new nodes that says what the document does. -/
theorem build_grown (document : Document) {before after : Draft} {id : NodeId}
    (h : Runs document.build before id after) :
    ∃ t, t.id = id ∧ ofTerm t = document.texts ∧ Grown before after [t] := by
  cases document with
  | node kind attributes children location =>
    unfold build at h
    split at h
    · exact absurd h runs_throw
    · rename_i found known
      obtain ⟨ids, between, below, made⟩ := runs_bind.mp h
      obtain ⟨ts, rfl, same, grown⟩ := buildAll_grown children below
      have grown := grown.make found location
        (attributes.entries.map fun (key, value) => (key, value.toText))
      have run : (Except.ok _, _) = (Except.ok id, after) := made
      cases run
      refine ⟨_, rfl, ?_, grown⟩
      have attrs := NameMap.ofList_entries (attributes.mapValues fun _ value => value.toText)
      rw [ofTerm, texts, same]
      simp only [NameMap.mapValues] at attrs ⊢
      simp only [attrs, Kind.name_of_ofName? known, List.map_map]
      rfl

theorem buildAll_grown (documents : List Document) {before after : Draft} {ids : List NodeId}
    (h : Runs (buildAll documents) before ids after) :
    ∃ ts, ts.map Term.id = ids ∧ ofTerms ts = textsAll documents ∧ Grown before after ts := by
  cases documents with
  | nil =>
    obtain ⟨rfl, rfl⟩ := runs_pure.mp h
    exact ⟨[], rfl, rfl, .nil _⟩
  | cons document documents =>
    simp only [buildAll, runs_bind, runs_pure] at h
    obtain ⟨id, between, first, ids, _, rest, rfl, rfl⟩ := h
    obtain ⟨t, rfl, same, one⟩ := build_grown document first
    obtain ⟨ts, rfl, sames, others⟩ := buildAll_grown documents rest
    exact ⟨t :: ts, rfl, by rw [ofTerms, textsAll, same, sames], one.cons others⟩

end

theorem shows_of_toTree {document : Document} {tree : Tree} (h : document.toTree = .ok tree) :
    ∃ t, tree.Shows .hole t ∧ ofTerm t = document.texts ∧
      t.postorder = List.range tree.size := by
  unfold toTree at h
  split at h
  · rename_i root draft run
    cases h
    obtain ⟨t, rfl, same, grown⟩ := document.build_grown run
    have fresh := grown.fresh
    have distinct := grown.distinct
    have numbered := grown.numbered
    simp only [List.flatMap_singleton] at fresh distinct numbered
    refine ⟨t, ⟨?_, ⟨rfl, ?_⟩, ?_, ?_⟩, same, numbered⟩
    · exact (grown.holds t List.mem_cons_self).congr fun _ _ => rfl
    · exact grown.orphans t List.mem_cons_self
    · simpa [Context.ids] using distinct
    · intro i hi
      exact (fresh i (by simpa [Context.ids] using hi)).2
  · cases h

end Document

/-- A tree that is read from a text shows a term that says what the text does. -/
theorem Tree.shows_of_load {text : String} {tree : Tree} (h : Tree.load text = .ok tree) :
    ∃ document t, Document.parse? text = some document ∧ document.toTree = .ok tree ∧
      Document.ofTerm t = document.texts ∧ tree.Shows .hole t := by
  unfold Tree.load at h
  split at h
  · cases h
  · rename_i document parsed
    cases made : document.toTree with
    | error fault => simp [made, Except.mapError] at h
    | ok tree' =>
      obtain rfl : tree' = tree := by simpa [made, Except.mapError] using h
      obtain ⟨t, shown, same, -⟩ := Document.shows_of_toTree made
      exact ⟨document, t, parsed, made, same, shown⟩

/-- A tree that is read from a text is linked. -/
theorem Tree.linked_of_load {text : String} {tree : Tree} (h : Tree.load text = .ok tree) :
    tree.Linked := by
  obtain ⟨_, _, _, _, _, shown⟩ := shows_of_load h
  exact shown.linked

end ClassCompiler
