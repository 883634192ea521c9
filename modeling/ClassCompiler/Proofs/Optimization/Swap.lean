import Mathlib.Algebra.Ring.Nat
import ClassCompiler.Proofs.Optimization.Idempotence

/-! Simplification, one literal at a time: every node that is added stands for a variable or an
operation that is not reached any more. So the number of nodes and the number of what can still
be replaced add up to the same at all times. -/

namespace ClassCompiler
set_option autoImplicit false

def Kind.isReplaceable : Kind → Bool
  | .identifier | .binaryOp => true
  | _ => false

theorem Kind.sort_of_isReplaceable {kind : Kind} (h : kind.isReplaceable = true) :
    kind.sort = .intLiteral := by
  cases kind <;> simp [isReplaceable, sort, isExpression] at h ⊢

theorem Kind.sort_of_isLiteral {kind : Kind} (h : kind.isLiteral = true) :
    kind.sort = .intLiteral := by
  cases kind <;> simp [isLiteral, sort, isExpression] at h ⊢

theorem Kind.eq_of_sort_eq {kind other : Kind} (h : kind.sort = other.sort)
    (statement : other.isExpression = false) : kind = other := by
  have same : other.sort = other := by simp [sort, statement]
  have own : kind.isExpression = false := by rw [← isExpression_sort, h, same, statement]
  rw [← same, ← h, sort, own, if_neg Bool.false_ne_true]

namespace Term

def replaceables (term : Term) : Nat :=
  (term :: term.descendants).countP fun t => t.kind.isReplaceable

theorem replaceables_node (id : NodeId) (label : Label) (children : List Term) :
    (node id label children).replaceables =
      (children.map replaceables).sum + if label.kind.isReplaceable then 1 else 0 := by
  rw [replaceables, List.countP_cons, descendants_eq_flatMap, List.countP_flatMap]
  rfl

theorem replaceables_leaf {literal : Known} (h : literal.kind.isLiteral = true) (id : NodeId)
    (location : Location) : (literal.leaf id location).replaceables = 0 := by
  cases kind : literal.kind <;>
    simp [Known.leaf, replaceables_node, kind, Kind.isReplaceable, Kind.isLiteral] at h ⊢

theorem WellFormed.replaceables_intLiteral {t : Term} (h : t.WellFormed)
    (literal : t.kind = .intLiteral) : t.replaceables = 0 := by
  have accepted := h.accepts
  rw [literal] at accepted
  have childless : t.children = [] := by simpa [Kind.accepts] using accepted
  rw [replaceables, descendants_eq_flatMap, childless, List.flatMap_nil, List.countP_singleton,
    literal]
  rfl

theorem WellFormed.replaceables_identifier {t : Term} (h : t.WellFormed)
    (identifier : t.kind = .identifier) : t.replaceables = 1 := by
  rw [replaceables, h.descendants_of_identifier identifier, List.countP_singleton, identifier]
  rfl

theorem wellFormed_leaf {literal : Known} (h : literal.kind.isLiteral = true) (id : NodeId)
    (location : Location) : (literal.leaf id location).WellFormed := by
  intro t ht
  obtain rfl : t = literal.leaf id location := by
    simpa [Known.leaf, descendants, children, unroll] using ht
  have childless : (literal.leaf id location).children = [] := rfl
  cases kind : literal.kind <;>
    simp [wellShaped, kind, childless, Kind.attribute?, Kind.accepts, Kind.isLiteral] at h ⊢

end Term

namespace Context

theorem replaceables_plug (context : Context) (t u : Term) :
    (context.plug t).replaceables + u.replaceables =
      (context.plug u).replaceables + t.replaceables := by
  induction context generalizing t u with
  | hole => exact Nat.add_comm _ _
  | under outer id label before after ih =>
    have whole := ih (.node id label (before ++ t :: after)) (.node id label (before ++ u :: after))
    simp only [Term.replaceables_node, List.map_append, List.map_cons, List.sum_append,
      List.sum_cons] at whole
    simp only [plug]
    omega

theorem mem_plug (context : Context) (t : Term) :
    t ∈ context.plug t :: (context.plug t).descendants := by
  induction context generalizing t with
  | hole => exact List.mem_cons_self
  | under outer id label before after ih =>
    refine Term.mem_descendants_trans (ih (.node id label (before ++ t :: after))) ?_
    have child : t ∈ (Term.node id label (before ++ t :: after)).children := by
      simp [Term.children]
    exact List.mem_cons_of_mem _ (Term.mem_descendants_of_child child List.mem_cons_self)

theorem sort_plug {context : Context} {t u : Term} (same : u.kind.sort = t.kind.sort) :
    (context.plug u).kind.sort = (context.plug t).kind.sort := by
  induction context generalizing t u with
  | hole => exact same
  | under outer id label before after ih => exact ih rfl

/-- A term in its place may be exchanged for one of the same sort. -/
theorem wellFormed_plug {context : Context} {t u : Term} (h : (context.plug t).WellFormed)
    (same : u.kind.sort = t.kind.sort) (shaped : u.WellFormed) :
    (context.plug u).WellFormed := by
  induction context generalizing t u with
  | hole => exact shaped
  | under outer id label before after ih =>
    refine ih h rfl ?_
    have around := h.below (mem_plug outer (.node id label (before ++ t :: after)))
    refine Term.forall_mem_node_iff.mpr ⟨?_, ?_⟩
    · have own := around _ List.mem_cons_self
      simp only [Term.wellShaped, Term.children, Bool.and_eq_true] at own ⊢
      have kinds : ((before ++ u :: after).map Term.kind).map Kind.sort =
          ((before ++ t :: after).map Term.kind).map Kind.sort := by simp [same]
      refine ⟨own.1, ?_⟩
      rw [← Kind.accepts_map_sort, kinds, Kind.accepts_map_sort]
      exact own.2
    · intro child hc
      rcases List.mem_append.mp hc with hc | hc
      · exact around.child (List.mem_append_left _ hc)
      · rcases List.mem_cons.mp hc with rfl | hc
        · exact shaped
        · exact around.child (List.mem_append_right _ (List.mem_cons_of_mem _ hc))

end Context

/-- A literal takes the place of a variable or an operation that has none of these below it. -/
inductive Swap (tree after : Tree) : Prop where
  | intro {context : Context} {t : Term} {known : Known} {new : NodeId}
    (shown : tree.Shows context t) (replaceable : t.kind.isReplaceable = true)
    (alone : t.replaceables = 1) (literal : known.kind.isLiteral = true)
    (put : tree.putLiteral t.id known = (.ok new, after))

abbrev Swaps : Tree → Tree → Prop := Relation.ReflTransGen Swap

namespace Tree

theorem size_putLiteral {tree after : Tree} {old new : NodeId} {literal : Known}
    (h : tree.putLiteral old literal = (.ok new, after)) : after.size = tree.size + 1 := by
  simp only [putLiteral] at h
  split at h
  · rename_i replaced
    cases h
    rw [size_replace replaced, size_add]
  · cases h

end Tree

namespace Swap
variable {tree after : Tree}

theorem size (h : Swap tree after) : after.size = tree.size + 1 := by
  obtain ⟨-, -, -, -, put⟩ := h
  exact Tree.size_putLiteral put

theorem replaceables (h : Swap tree after) :
    after.rootTerm.replaceables + 1 = tree.rootTerm.replaceables := by
  obtain ⟨shown, -, alone, literal, put⟩ := h
  rename_i context t value new
  have exchanged := context.replaceables_plug (value.leaf new t.location) t
  rw [alone, Term.replaceables_leaf literal] at exchanged
  rw [shown.rootTerm_eq, (shown.putLiteral put).rootTerm_eq, exchanged, Nat.add_zero]

theorem wellFormed (h : Swap tree after) (wellFormed : tree.WellFormed) : after.WellFormed := by
  obtain ⟨shown, replaceable, -, literal, put⟩ := h
  rename_i context t known new
  have shown' := shown.putLiteral put
  have shaped := wellFormed.shaped
  have root := wellFormed.root
  have same : (known.leaf new t.location).kind.sort = t.kind.sort :=
    (Kind.sort_of_isLiteral literal).trans (Kind.sort_of_isReplaceable replaceable).symm
  have sorts : (context.plug (known.leaf new t.location)).kind.sort = (context.plug t).kind.sort :=
    Context.sort_plug same
  rw [shown.rootTerm_eq] at shaped root
  refine ⟨shown'.linked, ?_, ?_⟩
  · rw [shown'.rootTerm_eq]
    refine root.imp (fun kind => ?_) fun kind => ?_
    all_goals
      rw [kind] at sorts
      exact Kind.eq_of_sort_eq sorts rfl
  · rw [shown'.rootTerm_eq]
    exact Context.wellFormed_plug shaped same (Term.wellFormed_leaf literal new t.location)

end Swap

namespace Swaps
variable {tree after : Tree}

theorem wellFormed (h : Swaps tree after) (wellFormed : tree.WellFormed) : after.WellFormed := by
  induction h with
  | refl => exact wellFormed
  | tail _ last ih => exact last.wellFormed ih

/-- Every node that is added stands for one that can be replaced no more. -/
theorem balance (h : Swaps tree after) : after.size + after.rootTerm.replaceables =
    tree.size + tree.rootTerm.replaceables := by
  induction h with
  | refl => rfl
  | tail _ last ih =>
    have := last.size
    have := last.replaceables
    omega

theorem size_le (h : Swaps tree after) : tree.size ≤ after.size := by
  induction h with
  | refl => exact Nat.le_refl _
  | tail _ last ih =>
    have := last.size
    omega

theorem eq_of_size (h : Swaps tree after) (same : after.size = tree.size) : after = tree := by
  cases h with
  | refl => rfl
  | tail first last =>
    have := last.size
    have := Swaps.size_le first
    omega

end Swaps

/-- A simplification replaces one thing after another, and counts them. -/
def Simplification.Counts (simplification : Simplification) (table : SymbolTable) : Prop :=
  ∀ {tree after : Tree} {count : Nat}, tree.WellFormed →
    Runs (simplification.run table) tree count after →
    Swaps tree after ∧ after.size = tree.size + count

namespace Folding
variable {tree after : Tree}

/-- A step of folding puts a literal into the place of an operation on literals. -/
theorem FoldStep.swap (h : FoldStep tree after) (wellFormed : tree.WellFormed) :
    Swap tree after := by
  obtain ⟨shown, fold, put⟩ := h
  rename_i context t value new
  have shaped : t.WellFormed := by
    have whole := wellFormed.shaped
    rw [shown.rootTerm_eq] at whole
    exact whole.below (context.mem_plug t)
  obtain ⟨kind, symbol, op, left, right, rest, a, b, value', id, location, -, -, -, hchildren,
    leftKind, -, rightKind, -⟩ := fold 0 {}
  refine .intro shown (by rw [kind]; rfl) ?_ rfl put
  cases t with
  | node id label children =>
    obtain rfl : children = left :: right :: rest := hchildren
    have kind : label.kind = .binaryOp := kind
    have none : ∀ c ∈ left :: right :: rest, c.replaceables = 0 := by
      intro c hc
      have literal : c.kind = .intLiteral := by
        rcases shaped.mem_children_of_binaryOp kind hc with rfl | rfl
        · exact leftKind
        · exact rightKind
      exact (shaped.child hc).replaceables_intLiteral literal
    rw [Term.replaceables_node, List.map_congr_left none, kind]
    simp [Kind.isReplaceable]

theorem counts (table : SymbolTable) : constantFolding.Counts table := by
  intro tree after count wellFormed run
  refine ⟨?_, size_of_fold wellFormed.linked run⟩
  have steps := steps_of_fold wellFormed.linked wellFormed.shaped run
  clear run
  induction steps with
  | refl => exact .refl
  | tail _ last ih => exact ih.tail (last.swap (Swaps.wellFormed ih wellFormed))

end Folding
end ClassCompiler
