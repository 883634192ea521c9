import ClassCompiler.Proofs.Syntax.Term
import ClassCompiler.Syntax.Operator
import ClassCompiler.Syntax.Tree

/-! Compound assignments, and the places where one may stand without being a part of a
greater expression. -/

namespace ClassCompiler
set_option autoImplicit false

namespace Term

def operator? (term : Term) : Option BinaryOperator :=
  (term.attr? "op").bind BinaryOperator.ofSymbol?

def isCompound (term : Term) : Bool :=
  term.kind == .binaryOp && term.operator?.any fun op => op.family == .compoundAssign

/-- Whether the child of a term at a place may be a compound assignment: it is the whole of
an expression statement, or the start or the update of a loop. -/
def hosts (kind : Kind) (place : Nat) : Bool :=
  kind == .exprStmt && place == 0 || kind == .forLoop && (place == 0 || place == 2)

def hostsCompounds (term : Term) : Bool :=
  term.children.zipIdx.all fun (child, place) => !child.isCompound || hosts term.kind place

/-- Every compound assignment strictly below a term stands alone. -/
def CompoundsAlone (term : Term) : Prop := ∀ t ∈ term :: term.descendants, t.hostsCompounds = true

theorem compoundsAlone_iff {term : Term} :
    term.CompoundsAlone ↔ (term :: term.descendants).all hostsCompounds = true :=
  List.all_eq_true.symm

instance (term : Term) : Decidable term.CompoundsAlone := decidable_of_iff' _ compoundsAlone_iff

theorem CompoundsAlone.child {term child : Term} (h : term.CompoundsAlone)
    (hc : child ∈ term.children) : child.CompoundsAlone := by
  intro t ht
  refine h t (List.mem_cons_of_mem _ ?_)
  rw [descendants_eq_flatMap]
  exact List.mem_flatMap.mpr ⟨child, hc, ht⟩

/-- A term that neither is a compound assignment nor has one in a place of its own. -/
structure Calm (term : Term) : Prop where
  plain : term.isCompound = false
  alone : term.CompoundsAlone

theorem CompoundsAlone.calm {id : NodeId} {label : Label} {children : List Term} {place : Nat}
    {child : Term} (h : CompoundsAlone (.node id label children))
    (hc : children[place]? = some child) (apart : hosts label.kind place = false) :
    child.Calm := by
  have hmem : child ∈ children := List.mem_of_getElem? hc
  refine ⟨?_, h.child hmem⟩
  have own := h _ List.mem_cons_self
  simp only [hostsCompounds, List.all_eq_true] at own
  have := own (child, place) (List.mem_zipIdx_iff_getElem?.mpr hc)
  simpa [Term.kind, Term.label, apart] using this

theorem CompoundsAlone.calm_of_mem {id : NodeId} {label : Label} {children : List Term}
    {child : Term} (h : CompoundsAlone (.node id label children)) (hc : child ∈ children)
    (statement : label.kind ≠ .exprStmt) (loop : label.kind ≠ .forLoop) : child.Calm := by
  obtain ⟨place, hplace⟩ := List.mem_iff_getElem?.mp hc
  refine h.calm hplace ?_
  simp [hosts, statement, loop]

theorem Calm.children {id : NodeId} {label : Label} {children : List Term}
    (h : Calm (.node id label children)) (expression : label.kind.isExpression = true) :
    ∀ child ∈ children, child.Calm := by
  intro child hc
  refine h.alone.calm_of_mem hc ?_ ?_ <;>
  · intro hk
    simp [hk, Kind.isExpression] at expression

end Term

theorem BinaryOperator.family_eq_compoundAssign_iff (op : BinaryOperator) :
    op.family = .compoundAssign ↔ op.compoundBase?.isSome = true := by
  cases op <;> decide

/-- Every compound assignment of a tree stands alone. -/
def Tree.CompoundsAlone (tree : Tree) : Prop := tree.rootTerm.CompoundsAlone

instance (tree : Tree) : Decidable tree.CompoundsAlone :=
  inferInstanceAs (Decidable tree.rootTerm.CompoundsAlone)

theorem Tree.CompoundsAlone.classDecl {tree : Tree} {decl : Term} (h : tree.CompoundsAlone)
    (hdecl : tree.classDecl = .ok decl) : decl.CompoundsAlone := by
  simp only [Tree.classDecl] at hdecl
  split at hdecl
  · cases hdecl
    exact h
  · split at hdecl
    · rename_i found hfound
      cases hdecl
      have hmem := List.mem_of_head? hfound
      exact Term.CompoundsAlone.child h (List.mem_filter.mp hmem).1
    · cases hdecl

end ClassCompiler
