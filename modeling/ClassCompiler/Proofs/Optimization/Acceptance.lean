import ClassCompiler.Proofs.Optimization.Rounds
import ClassCompiler.Proofs.Optimization.Survival
import ClassCompiler.Proofs.Optimization.Typing

/-! Optimization keeps a class accepted, with its symbol table and the types of all the expressions
that are left. -/

namespace ClassCompiler
set_option autoImplicit false

open List (Forall₂)

section
variable {table : SymbolTable} {tree tree' : Tree}

/-- An accepted class in which the types of all locals are known. -/
structure Settled (table : SymbolTable) (tree : Tree) : Prop where
  shaped : tree.WellFormed
  accepted : check tree = .ok (table, [])
  known : tree.TypesKnown

/-- A tree after another one: expressions have become literals of their types, and the nodes that
there were have their labels. -/
structure Follows (table : SymbolTable) (tree tree' : Tree) : Prop where
  linked : tree'.Linked
  retyped : ∀ method, Retyped table method tree.rootTerm tree'.rootTerm
  grown : tree.Extends tree'

/-- A class in which expressions have become literals of their types is accepted again. -/
theorem Settled.invariant (table : SymbolTable) : Invariant (Settled table) (Follows table) where
  refl h := ⟨h.shaped.linked, fun _ => .refl _ _, .refl _⟩
  trans h h' := ⟨h'.linked, fun method => (h.retyped method).trans (h'.retyped method),
    h.grown.trans h'.grown⟩
  kept h later := by
    have retyped := later.retyped none
    refine ⟨retyped.wellFormed h.shaped later.linked,
      retyped.check_eq h.shaped later.linked h.accepted, ?_⟩
    rw [Tree.TypesKnown, retyped.simplified.varDecls_eq h.shaped.shaped]
    exact h.known

theorem constantFolding_follows (table : SymbolTable) :
    constantFolding.Respects table (Settled table) (Follows table) := by
  intro tree tree' count h run
  obtain ⟨linked, retyped⟩ := Folding.retyped_of_fold h.shaped.linked h.shaped.shaped run
  exact ⟨linked, retyped, Folding.extends_of_fold h.shaped.linked h.shaped.shaped run⟩

theorem constantPropagation_follows (distinguished : table.Distinguished) :
    constantPropagation.Respects table (Settled table) (Follows table) := by
  intro tree tree' count h run
  obtain ⟨linked, retyped⟩ := Propagation.retyped_of_propagate h.shaped.linked
    (fun decl hdecl m hm name named =>
      exact_of_check h.shaped h.accepted h.known distinguished hdecl hm named) run
  exact ⟨linked, retyped, Propagation.extends_of_propagate table run⟩

theorem Tree.label_term (tree : Tree) (id : NodeId) :
    (tree.term id).label = (tree.node id).label := by
  unfold term
  cases tree.size <;> rfl

/-- A node that was there before has the type that it had, wherever a walk comes to it. -/
theorem Follows.exprType_eq {v' : Visit} (h : Follows table tree tree') (linked : tree.Linked)
    (ends : (tree.rootTerm.walk {}).fault = none) (hv' : v' ∈ (tree'.rootTerm.walk {}).visits)
    (old : v'.term.id < tree.size) :
    table.exprType v'.scope.methodName? v'.term =
      table.exprType v'.scope.methodName? (tree.term v'.term.id) := by
  obtain ⟨v, hv, same⟩ := (h.retyped none).exists_visit ends hv'
  cases same with
  | literal kind =>
    obtain ⟨context', shown'⟩ := h.linked.exists_of_mem (Term.mem_of_visit hv')
    have label : (tree.term v'.term.id).label = v'.term.label := by
      rw [Tree.label_term, ← h.grown.label _ old]
      exact shown'.holds.stores.label
    have literal := Kind.isLiteral_iff.mpr kind
    have kind : (tree.term v'.term.id).kind = v'.term.kind := congrArg Label.kind label
    rw [SymbolTable.exprType_literal literal, SymbolTable.exprType_literal (kind ▸ literal), kind]
  | node below =>
    obtain ⟨context, shown⟩ := linked.exists_of_mem (Term.mem_of_visit hv)
    have term := shown.term_eq
    dsimp only [Term.id] at term ⊢
    rw [term]
    exact SymbolTable.exprType_congr (below.imp fun _ _ retyped =>
      ⟨retyped.simplified.kind_eq_iff .thisRef rfl, retyped.exprType_eq⟩)

/-- Optimization of an accepted class leaves an accepted class with the same symbol table, and an
expression that is left has the type that it had, however many rounds there are. -/
theorem optimize_keeps_accepted {reports : List Report} {options : Options}
    {summary : OptimizationSummary} (shaped : tree.WellFormed)
    (accepted : check tree = .ok (table, reports)) (clean : hasErrors reports = false)
    (known : tree.TypesKnown) (distinguished : table.Distinguished)
    (run : Runs (optimize table options) tree summary tree') :
    SymbolTable.build tree' = .ok table ∧ check tree' = .ok (table, []) ∧
    ∃ decl', tree'.classDecl = .ok decl' ∧
      ∀ m' ∈ decl'.childrenOfKind .methodDecl, ∃ context, MethodContext.of m' = .ok context ∧
        ∀ e' ∈ m'.descendants, e'.id < tree.size →
          table.exprType (some context.name) e' =
            table.exprType (some context.name) (tree.term e'.id) := by
  have settled : Settled table tree := ⟨shaped, check_eq_of_clean accepted clean, known⟩
  have follows := (Settled.invariant table).optimize (constantFolding_follows table)
    (constantPropagation_follows distinguished) settled run
  have settled' := (Settled.invariant table).kept settled follows
  have built' := (passes_of_check settled'.accepted rfl).1
  obtain ⟨decl', hdecl'⟩ := exists_classDecl_of_build built'
  refine ⟨built', settled'.accepted, decl', hdecl', fun m' hm' => ?_⟩
  obtain ⟨context, hcontext, visits⟩ := settled'.shaped.mem_visits
    (fault_walk_of_check settled'.accepted rfl) hdecl' hm'
  refine ⟨context, hcontext, fun e' he' old => ?_⟩
  exact follows.exprType_eq shaped.linked (fault_walk_of_check accepted clean)
    (visits e' (List.mem_cons_of_mem _ he')) old

end

theorem optimize_keeps_accepted_scaling :
    scalingTree.WellFormed ∧ check scalingTree = .ok (scalingTable, []) ∧
    scalingTree.TypesKnown ∧ scalingTable.Distinguished ∧
    Runs (optimize scalingTable { optimize := true }) scalingTree ⟨3, 3⟩ scalingOptimized ∧
    SymbolTable.build scalingOptimized = .ok scalingTable ∧
    check scalingOptimized = .ok (scalingTable, []) := by
  have known : scalingTree.TypesKnown := by decide +kernel
  have distinguished : scalingTable.Distinguished := by decide
  obtain ⟨built, accepted, -⟩ := optimize_keeps_accepted scalingTree_shape.1 check_scalingTree rfl
    known distinguished runs_optimize_scaling
  exact ⟨scalingTree_shape.1, check_scalingTree, known, distinguished, runs_optimize_scaling, built,
    accepted⟩

section Naming
open Draft

/-- A class with the name of a type, which assigns a number to a variable of its superclass and
calls a method of that. -/
def naming : Construction NodeId := do
  let x ← varDecl "x" (.ofClass "Base") 3
  let first ← assign "x" (← intLiteral 1 4) 4
  let run ← exprStmt (← call (← identifier "x" 5) "run" [] 5) 5
  let start ← method "start" .void [] [x, first, run] false 2
  program ["Base"] (← classDecl "int" (some "Base") [start] 1)

def namingTree : Tree := (naming.run {}).2.finish (naming.run {}).1

def namingTable : SymbolTable where
  className := "int"
  superName := "Base"
  imports := ["Base"]
  fields := []
  methods := ["start"]
  signatures := [("start", ⟨.void, [], [⟨"x", .ofClass "Base", false⟩], false⟩)]

def namingOptimized : Tree :=
  (outcome (optimize namingTable { optimize := true }) namingTree).2

/-- Without a name of its own a class may be refused after optimization: the variable is
exchanged for the number, and a number has no methods. -/
theorem not_accepted_of_named_int :
    namingTree.WellFormed ∧ check namingTree = .ok (namingTable, []) ∧ namingTree.TypesKnown ∧
    Runs (optimize namingTable { optimize := true }) namingTree ⟨2, 1⟩ namingOptimized ∧
    (check namingOptimized).map (fun result => hasErrors result.2) = .ok true := by
  unfold Runs
  decide +kernel

end Naming
end ClassCompiler
