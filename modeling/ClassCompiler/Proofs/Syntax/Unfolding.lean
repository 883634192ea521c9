import ClassCompiler.Proofs.Syntax.Term
import ClassCompiler.Syntax.Tree.Lemmas
import Mathlib.Data.List.Nodup
import Mathlib.Data.List.Perm.Subperm

/-! What is below a node of a tree. The nodes below it may go on without an end, and then the term
at the node is cut off somewhere. Where there is an end, a node stands for one term only, so no
node is below itself, no way down is longer than there are nodes, and the term at the node is all
that is there. -/

namespace ClassCompiler
set_option autoImplicit false

namespace Term

def ids (term : Term) : List NodeId := (term :: term.descendants).map id

theorem ids_node (i : NodeId) (label : Label) (children : List Term) :
    (node i label children).ids = i :: children.flatMap ids := by
  rw [ids, List.map_cons, descendants_eq_flatMap, List.map_flatMap]
  rfl

theorem id_mem_ids (term : Term) : term.id ∈ term.ids := List.mem_cons_self

theorem map_id_sublist_flatMap_ids (terms : List Term) :
    (terms.map id).Sublist (terms.flatMap ids) := by
  induction terms with
  | nil => exact .slnil
  | cons term terms ih =>
    rw [List.map_cons, List.flatMap_cons, ids, List.map_cons, List.cons_append]
    exact (ih.trans (List.sublist_append_right _ _)).cons_cons _

theorem ids_subset_of_mem {term below : Term} (h : below ∈ term :: term.descendants) :
    below.ids ⊆ term.ids := by
  induction term using Term.induct with
  | step i label children ih =>
    rcases List.mem_cons.mp h with rfl | h
    · exact fun _ h => h
    · rw [descendants_eq_flatMap] at h
      obtain ⟨child, hchild, h⟩ := List.mem_flatMap.mp h
      intro j hj
      rw [ids_node]
      exact List.mem_cons_of_mem _ (List.mem_flatMap.mpr ⟨child, hchild, ih child hchild h hj⟩)

theorem length_ids (term : Term) : term.ids.length = term.size := by
  simp [ids, size_eq_length_descendants]

theorem size_lt_of_mem (i : NodeId) (label : Label) {children : List Term} {child : Term}
    (h : child ∈ children) : child.size < (node i label children).size := by
  have : child.size ≤ sizeAll children := by
    induction children with
    | nil => cases h
    | cons head tail ih =>
      simp only [sizeAll]
      rcases List.mem_cons.mp h with rfl | h
      · omega
      · have := ih h
        omega
  simp only [size]
  omega

mutual

def height : Term → Nat
  | node _ _ children => heightAll children + 1

def heightAll : List Term → Nat
  | [] => 0
  | term :: terms => max term.height (heightAll terms)

end

theorem heightAll_le_iff {terms : List Term} {bound : Nat} :
    heightAll terms ≤ bound ↔ ∀ t ∈ terms, t.height ≤ bound := by
  induction terms with
  | nil => simp [heightAll]
  | cons term terms ih => rw [heightAll, Nat.max_le, ih, List.forall_mem_cons]

theorem height_le_size (term : Term) : term.height ≤ term.size := by
  induction term using Term.induct with
  | step id label children ih =>
    rw [height, size]
    apply Nat.succ_le_succ
    apply heightAll_le_iff.mpr
    intro child hc
    exact Nat.le_trans (ih child hc) (Nat.le_of_lt_succ (size_lt_of_mem id label hc))

theorem size_lt_of_mem_descendants {term t : Term} (h : t ∈ term.descendants) :
    t.size < term.size := by
  induction term using Term.induct with
  | step id label children ih =>
    obtain ⟨child, hc, h⟩ := exists_child_of_mem_descendants h
    have smaller := size_lt_of_mem id label hc
    rcases List.mem_cons.mp h with rfl | h
    · exact smaller
    · exact Nat.lt_trans (ih child hc h) smaller

end Term

namespace Tree

/-- A node of a tree has the label of a term, and the term's children are the node's in order. The
links to parents do not matter. -/
structure Spells (tree : Tree) (term : Term) : Prop where
  label : (tree.node term.id).label = term.label
  children : tree.children term.id = term.children.map Term.id

instance (tree : Tree) (term : Term) : Decidable (tree.Spells term) :=
  decidable_of_iff ((tree.node term.id).label = term.label ∧
      tree.children term.id = term.children.map Term.id)
    ⟨fun ⟨a, b⟩ => ⟨a, b⟩, fun ⟨a, b⟩ => ⟨a, b⟩⟩

variable {tree other : Tree} {term t : Term}

/-- A depth that is not less than the height of a term cuts nothing off. -/
theorem unfold_eq_of_spells {depth : Nat} (spelt : ∀ t ∈ term :: term.descendants, tree.Spells t)
    (deep : term.height ≤ depth + 1) : tree.unfold depth term.id = term := by
  induction term using Term.induct generalizing depth with
  | step id label children ih =>
    obtain ⟨own, below⟩ := Term.forall_mem_node_iff.mp spelt
    have hlabel : (tree.node id).label = label := own.label
    have hchildren : tree.children id = children.map Term.id := own.children
    have each := Term.heightAll_le_iff.mp (Nat.le_of_succ_le_succ deep)
    cases depth with
    | zero =>
      have empty : children = [] := by
        apply List.eq_nil_iff_forall_not_mem.mpr
        intro child hc
        have flat := each child hc
        cases child
        exact Nat.not_succ_le_zero _ flat
      simp [Tree.unfold, Term.id, hlabel, empty]
    | succ depth =>
      have same : (tree.children id).map (tree.unfold depth) = children := by
        rw [hchildren, List.map_map]
        conv_rhs => rw [← List.map_id children]
        apply List.map_congr_left
        intro child hc
        exact ih child hc (below child hc) (each child hc)
      simp only [Tree.unfold, Term.id, hlabel, same]

structure Reads (tree : Tree) (term : Term) : Prop where
  spelt : ∀ t ∈ term :: term.descendants, tree.Spells t
  inside : ∀ id ∈ term.ids, id < tree.size

/-- What is at and below a node comes to an end. -/
def Finite (tree : Tree) (id : NodeId) : Prop := ∃ term : Term, term.id = id ∧ tree.Reads term

theorem reads_node_iff {id : NodeId} {label : Label} {children : List Term} :
    tree.Reads (.node id label children) ↔ id < tree.size ∧
      tree.Spells (.node id label children) ∧ ∀ child ∈ children, tree.Reads child := by
  constructor
  · rintro ⟨spelt, inside⟩
    obtain ⟨own, below⟩ := Term.forall_mem_node_iff.mp spelt
    rw [Term.ids_node] at inside
    obtain ⟨room, within⟩ := List.forall_mem_cons.mp inside
    refine ⟨room, own, fun child hc => ⟨below child hc, fun i hi => ?_⟩⟩
    exact within i (List.mem_flatMap.mpr ⟨child, hc, hi⟩)
  · rintro ⟨room, own, below⟩
    refine ⟨Term.forall_mem_node_iff.mpr ⟨own, fun child hc => (below child hc).spelt⟩, ?_⟩
    rw [Term.ids_node]
    refine List.forall_mem_cons.mpr ⟨room, fun i hi => ?_⟩
    obtain ⟨child, hc, hi⟩ := List.mem_flatMap.mp hi
    exact (below child hc).inside i hi

theorem Reads.of_mem (h : tree.Reads term) (ht : t ∈ term :: term.descendants) : tree.Reads t :=
  ⟨fun u hu => h.spelt u (Term.mem_descendants_trans ht hu),
    fun i hi => h.inside i (Term.ids_subset_of_mem ht hi)⟩

theorem Reads.congr (h : tree.Reads term) (grown : tree.size ≤ other.size)
    (same : ∀ id ∈ term.ids, other.node id = tree.node id) : other.Reads term where
  spelt t ht := by
    have own : other.node t.id = tree.node t.id := same _ (List.mem_map_of_mem ht)
    refine ⟨own ▸ (h.spelt t ht).label, ?_⟩
    rw [children, own]
    exact (h.spelt t ht).children
  inside i hi := Nat.lt_of_lt_of_le (h.inside i hi) grown

/-- A node stands for one term only. -/
theorem Reads.eq_of_id_eq {a b : Term} (ha : tree.Reads a) (hb : tree.Reads b)
    (same : a.id = b.id) : a = b := by
  induction a using Term.induct generalizing b with
  | step id label children ih =>
    cases b with
    | node id' label' children' =>
      obtain rfl : id = id' := same
      obtain ⟨-, own, below⟩ := reads_node_iff.mp ha
      obtain ⟨-, own', below'⟩ := reads_node_iff.mp hb
      have labels : label = label' := own.label.symm.trans own'.label
      have ids : children.map Term.id = children'.map Term.id :=
        own.children.symm.trans own'.children
      have all : children = children' := by
        clear own own' ha hb
        induction children generalizing children' with
        | nil => exact (List.map_eq_nil_iff.mp ids.symm).symm
        | cons child rest again =>
          cases children' with
          | nil => cases ids
          | cons child' rest' =>
            simp only [List.map_cons, List.cons.injEq] at ids
            rw [List.forall_mem_cons] at ih below below'
            rw [ih.1 below.1 below'.1 ids.1, again ih.2 rest' below.2 below'.2 ids.2]
      rw [labels, all]

theorem Reads.id_ne (h : tree.Reads term) (ht : t ∈ term.descendants) : t.id ≠ term.id := by
  intro same
  have equal := (h.of_mem (List.mem_cons_of_mem _ ht)).eq_of_id_eq h same
  have smaller := Term.size_lt_of_mem_descendants ht
  rw [equal] at smaller
  exact Nat.lt_irrefl _ smaller

theorem length_le_size {ids : List NodeId} (distinct : ids.Nodup)
    (inside : ∀ id ∈ ids, id < tree.size) : ids.length ≤ tree.size := by
  have within : ids ⊆ List.range tree.size := fun i hi => List.mem_range.mpr (inside i hi)
  have bound := distinct.length_le_of_subset within
  rwa [List.length_range] at bound

/-- The nodes on a way down are different from each other and from those above the term, so the way
is not longer than there are other nodes. -/
theorem Reads.height_add_le {above : List NodeId} (h : tree.Reads term) (distinct : above.Nodup)
    (inside : ∀ id ∈ above, id < tree.size) (new : ∀ id ∈ term.ids, id ∉ above) :
    above.length + term.height ≤ tree.size := by
  induction term using Term.induct generalizing above with
  | step id label children ih =>
    obtain ⟨room, -, below⟩ := reads_node_iff.mp h
    have longer : (id :: above).Nodup :=
      List.nodup_cons.mpr ⟨new id (Term.id_mem_ids _), distinct⟩
    have within : ∀ i ∈ id :: above, i < tree.size :=
      List.forall_mem_cons.mpr ⟨room, inside⟩
    have apart : ∀ child ∈ children, ∀ i ∈ child.ids, i ∉ id :: above := by
      intro child hc i hi
      obtain ⟨t, ht, rfl⟩ := List.mem_map.mp hi
      have hbelow : t ∈ (Term.node id label children).descendants :=
        Term.mem_descendants_of_child hc ht
      rw [List.mem_cons, not_or]
      exact ⟨h.id_ne hbelow, new _ (List.mem_map_of_mem (List.mem_cons_of_mem _ hbelow))⟩
    have count : (id :: above).length ≤ tree.size := length_le_size longer within
    have each : Term.heightAll children ≤ tree.size - (id :: above).length := by
      apply Term.heightAll_le_iff.mpr
      intro child hc
      exact Nat.le_sub_of_add_le' (ih child hc (below child hc) longer within (apart child hc))
    rw [List.length_cons] at count each
    rw [Term.height]
    omega

theorem Reads.height_le (h : tree.Reads term) : term.height ≤ tree.size := by
  have bound := h.height_add_le List.nodup_nil (by simp) (by simp)
  rwa [List.length_nil, Nat.zero_add] at bound

theorem Reads.term_eq (h : tree.Reads term) : tree.term term.id = term :=
  unfold_eq_of_spells h.spelt (Nat.le_succ_of_le h.height_le)

theorem id_term (tree : Tree) (id : NodeId) : (tree.term id).id = id := by
  unfold Tree.term
  cases tree.size <;> rfl

theorem finite_iff {id : NodeId} : tree.Finite id ↔ tree.Reads (tree.term id) := by
  constructor
  · rintro ⟨term, rfl, h⟩
    rwa [h.term_eq]
  · exact fun h => ⟨_, tree.id_term id, h⟩

theorem finite_iff_all {id : NodeId} : tree.Finite id ↔
    (tree.term id :: (tree.term id).descendants).all (fun t => decide (tree.Spells t)) = true ∧
      (tree.term id).ids.all (· < tree.size) = true := by
  simp only [finite_iff, List.all_eq_true, decide_eq_true_eq]
  exact ⟨fun h => ⟨h.spelt, h.inside⟩, fun ⟨spelt, inside⟩ => ⟨spelt, inside⟩⟩

instance (id : NodeId) : Decidable (tree.Finite id) := decidable_of_iff' _ finite_iff_all

theorem mem_classDecl {decl : Term} (h : tree.classDecl = .ok decl) :
    decl ∈ tree.rootTerm :: tree.rootTerm.descendants := by
  simp only [classDecl] at h
  split at h
  · cases h
    exact List.mem_cons_self
  · split at h
    · rename_i found hfound
      cases h
      exact List.mem_cons_of_mem _ (Term.mem_descendants_of_child
        (List.mem_filter.mp (List.mem_of_head? hfound)).1 List.mem_cons_self)
    · cases h

/-! Where nothing is cut off, a term is known by its number. -/

/-- The class of a tree and the methods of the class, by their numbers. -/
structure Declares (tree : Tree) (decl : NodeId) (methods : List NodeId) : Prop where
  found : tree.classDecl = .ok (tree.term decl)
  listed : (tree.term decl).childrenOfKind .methodDecl = methods.map tree.term

namespace Finite
variable {id below : NodeId} {t : Term}

theorem term_id (h : tree.Finite id) (ht : t ∈ tree.term id :: (tree.term id).descendants) :
    tree.term t.id = t := ((finite_iff.mp h).of_mem ht).term_eq

theorem mem_descendants (h : tree.Finite id)
    (inside : below ∈ (tree.term id).descendants.map Term.id) :
    tree.term below ∈ (tree.term id).descendants := by
  obtain ⟨t, ht, rfl⟩ := List.mem_map.mp inside
  rwa [h.term_id (List.mem_cons_of_mem _ ht)]

theorem eq_map_term {terms : List Term} {ids : List NodeId} (h : tree.Finite id)
    (inside : terms ⊆ (tree.term id).children) (listed : terms.map Term.id = ids) :
    terms = ids.map tree.term := by
  have same : ∀ t ∈ terms, tree.term t.id = t := fun t ht =>
    h.term_id (List.mem_cons_of_mem _ (Term.mem_descendants_of_child (inside ht)
      List.mem_cons_self))
  rw [← listed, List.map_map]
  exact ((List.map_congr_left same).trans (List.map_id' _)).symm

theorem children_eq {ids : List NodeId} (h : tree.Finite id)
    (listed : (tree.term id).children.map Term.id = ids) :
    (tree.term id).children = ids.map tree.term := h.eq_map_term (List.Subset.refl _) listed

theorem of_mem (h : tree.Finite id) (ht : t ∈ tree.term id :: (tree.term id).descendants) :
    tree.Finite t.id := ⟨t, rfl, (finite_iff.mp h).of_mem ht⟩

end Finite

theorem declares_of_ids {decl : NodeId} {methods : List NodeId}
    (h : tree.Finite tree.root ∧ tree.classDecl.map Term.id = .ok decl ∧
      ((tree.term decl).childrenOfKind .methodDecl).map Term.id = methods) :
    tree.Declares decl methods := by
  obtain ⟨finite, found, listed⟩ := h
  cases hclass : tree.classDecl with
  | error fault => simp [hclass, Except.map] at found
  | ok d =>
    obtain rfl : d.id = decl := by simpa [hclass, Except.map] using found
    have inside := mem_classDecl hclass
    refine ⟨by rw [hclass, finite.term_id inside], ?_⟩
    exact (finite.of_mem inside).eq_map_term (fun _ ht => List.mem_of_mem_filter ht) listed

end Tree
end ClassCompiler
