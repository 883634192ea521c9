import ClassCompiler.Optimization.Rounds
import ClassCompiler.Proofs.Optimization.Folding
import ClassCompiler.Proofs.Review.EarlyUseReports

/-! Rounds of simplification keep the meaning of methods: both simplifications do, and what
they ask of a tree still holds of what they leave. -/

namespace ClassCompiler
set_option autoImplicit false

open List (Forall₂)

/-- A condition on trees, and a relation of a tree to later ones that keep the condition. -/
structure Invariant (holds : Tree → Prop) (later : Tree → Tree → Prop) : Prop where
  refl : ∀ {a}, holds a → later a a
  trans : ∀ {a b c}, later a b → later b c → later a c
  kept : ∀ {a b}, holds a → later a b → holds b

/-- A simplification relates a tree for which a condition holds to what it leaves of it. -/
def Simplification.Respects (simplification : Simplification) (table : SymbolTable)
    (holds : Tree → Prop) (later : Tree → Tree → Prop) : Prop :=
  ∀ {tree tree' : Tree} {count : Nat}, holds tree →
    Runs (simplification.run table) tree count tree' → later tree tree'

namespace Invariant
variable {holds : Tree → Prop} {later : Tree → Tree → Prop} {table : SymbolTable}
  {simplifications : List Simplification} {tree tree' : Tree}

theorem round {count : Nat} (invariant : Invariant holds later)
    (all : ∀ simplification ∈ simplifications, simplification.Respects table holds later)
    (h : holds tree) (run : Runs (Optimization.round table simplifications) tree count tree') :
    later tree tree' := by
  induction simplifications generalizing tree count with
  | nil =>
    obtain ⟨_, rfl⟩ := runs_pure.mp run
    exact invariant.refl h
  | cons simplification rest ih =>
    simp only [Optimization.round, runs_bind, runs_pure] at run
    obtain ⟨_, _, first, _, _, others, _, rfl⟩ := run
    have next := all simplification List.mem_cons_self h first
    refine invariant.trans next (ih ?_ (invariant.kept h next) others)
    exact fun other hother => all other (List.mem_cons_of_mem _ hother)

theorem run {left : Nat} {first last : OptimizationSummary} (invariant : Invariant holds later)
    (all : ∀ simplification ∈ simplifications, simplification.Respects table holds later)
    (h : holds tree)
    (rounds : Runs (Optimization.run simplifications table left first) tree last tree') :
    later tree tree' := by
  induction left generalizing tree first with
  | zero =>
    obtain ⟨_, rfl⟩ := runs_pure.mp rounds
    exact invariant.refl h
  | succ left ih =>
    simp only [Optimization.run, runs_bind] at rounds
    obtain ⟨changed, between, once, rounds⟩ := rounds
    have next := invariant.round all h once
    split at rounds
    · obtain ⟨_, rfl⟩ := runs_pure.mp rounds
      exact next
    · exact invariant.trans next (ih (invariant.kept h next) rounds)

/-- What folding and propagation respect, optimization does. -/
theorem optimize {options : Options} {summary : OptimizationSummary}
    (invariant : Invariant holds later) (folding : constantFolding.Respects table holds later)
    (propagation : constantPropagation.Respects table holds later) (h : holds tree)
    (run : Runs (ClassCompiler.optimize table options) tree summary tree') : later tree tree' := by
  unfold ClassCompiler.optimize at run
  split at run
  · refine invariant.run ?_ h run
    intro simplification hmem
    simp only [List.mem_cons, List.not_mem_nil, or_false] at hmem
    rcases hmem with rfl | rfl
    · exact folding
    · exact propagation
  · obtain ⟨_, rfl⟩ := runs_pure.mp run
    exact invariant.refl h

end Invariant

/-- What a tree has to be like for its simplification to keep its meaning. -/
structure Optimizable (tree : Tree) : Prop where
  linked : tree.Linked
  shaped : tree.rootTerm.WellFormed
  alone : tree.rootTerm.CompoundsAlone
  plain : tree.rootTerm.PlainTargets

/-- What simplifications ask of a tree still holds of what they leave. -/
theorem Optimizable.invariant (table : SymbolTable) :
    Invariant Optimizable (Optimized table) where
  refl h := .refl h.linked
  trans := Optimized.trans
  kept h later :=
    ⟨later.linked, later.simplified.wellFormed h.shaped, later.simplified.compoundsAlone h.alone,
      later.simplified.plainTargets h.plain⟩

theorem optimized_of_optimize {table : SymbolTable} {options : Options} {tree tree' : Tree}
    {summary : OptimizationSummary} (h : Optimizable tree)
    (run : Runs (optimize table options) tree summary tree') : Optimized table tree tree' :=
  (Optimizable.invariant table).optimize
    (fun h run => Folding.optimized_of_fold h.linked h.shaped h.alone h.plain run)
    (fun h run => Propagation.optimized_of_propagate h.linked h.alone h.plain run) h run

/-- Two declarations of a method run alike: whatever the calls answer and the variables, fields
and arrays hold at first, they make the same calls, leave the same memory and return the same
value, or end with the same trap. -/
def SameRuns (table : SymbolTable) (m m' : Term) : Prop :=
  ∃ name, m.attr? "name" = some name ∧ m'.attr? "name" = some name ∧
    ∀ oracle rounds s, outcome (runMethod ⟨table, name, oracle⟩ rounds m') s =
      outcome (runMethod ⟨table, name, oracle⟩ rounds m) s

/-- Optimization keeps the meaning of every method of an accepted class, however many rounds
of it there are. -/
theorem optimize_preserves_runs {tree tree' : Tree} {table : SymbolTable} {reports : List Report}
    {options : Options} {summary : OptimizationSummary}
    (accepted : check tree = .ok (table, reports)) (clean : hasErrors reports = false)
    (wellFormed : tree.WellFormed) (alone : tree.CompoundsAlone)
    (plain : tree.rootTerm.PlainTargets)
    (run : Runs (optimize table options) tree summary tree') :
    ∃ decl decl', tree.classDecl = .ok decl ∧ tree'.classDecl = .ok decl' ∧
      Forall₂ (SameRuns table) (decl.childrenOfKind .methodDecl)
        (decl'.childrenOfKind .methodDecl) := by
  have built := (passes_of_check accepted clean).1
  simp only [SymbolTable.build, except_bind_eq_ok] at built
  obtain ⟨decl, hdecl, -⟩ := built
  have optimized := optimized_of_optimize
    ⟨wellFormed.linked, wellFormed.shaped, alone, plain⟩ run
  obtain ⟨decl', hdecl', same⟩ := optimized.methods decl hdecl
  refine ⟨decl, decl', hdecl, hdecl', forall₂_of_mem same ?_⟩
  intro m hm m' kept
  obtain ⟨hmem, hkind⟩ := List.mem_filter.mp hm
  have kind : m.kind = .methodDecl := by simpa using hkind
  obtain ⟨name, hname⟩ := ((wellFormed.classDecl hdecl).child hmem).attr
    (show m.kind.attribute? = some "name" by rw [kind]; rfl)
  refine ⟨name, hname, ?_, kept.runs name hname⟩
  rw [Term.attr?, kept.label]
  exact hname

section Scaling
open Draft

/-- A class with a method that triples a number that it knows and adds what it is given. -/
def scaling : Construction NodeId := do
  let x ← varDecl "x" .int 2
  let y ← varDecl "y" .int 2
  let first ← assign "x" (← intLiteral 2 3) 3
  let second ← assign "y" (← binary "*" (← identifier "x" 4) (← intLiteral 3 4) 4) 4
  let add ← exprStmt (← binary "+=" (← identifier "y" 5) (← identifier "n" 5) 5) 5
  let result ← ret (some (← binary "-" (← identifier "y" 6) (← identifier "x" 6) 6)) 6
  let scale ← method "scale" .int [← param "n" .int 2] [x, y, first, second, add, result] false 2
  classDecl "Scale" none [scale] 1

def scalingTree : Tree := (scaling.run {}).2.finish (scaling.run {}).1

def scalingTable : SymbolTable where
  className := "Scale"
  superName := ""
  imports := []
  fields := []
  methods := ["scale"]
  signatures :=
    [("scale", ⟨.int, [⟨"n", .int, false⟩], [⟨"x", .int, false⟩, ⟨"y", .int, false⟩], false⟩)]

def scalingOptimized : Tree :=
  (outcome (optimize scalingTable { optimize := true }) scalingTree).2

theorem declares_scalingTree : scalingTree.Declares 22 [21] :=
  Tree.declares_of_ids (by decide +kernel)

theorem check_scalingTree : check scalingTree = .ok (scalingTable, []) := by
  obtain ⟨built, before, after⟩ : SymbolTable.build scalingTree = .ok scalingTable ∧
      (∀ check ∈ standardChecks.take 2,
        Review.Passes (check.run ⟨scalingTree, scalingTable⟩) ()) ∧
      ∀ check ∈ standardChecks.drop 3,
        Review.Passes (check.run ⟨scalingTree, scalingTable⟩) () := by decide +kernel
  have ordered : Review.Passes (Review.declarationOrder.run ⟨scalingTree, scalingTable⟩) () :=
    Review.runs_declarationOrder_of_single declares_scalingTree
      (Review.runs_reportEarlyUses_of_sorted "scale" (by decide +kernel))
  exact check_eq_ok_nil built
    (List.forall_mem_append.mpr ⟨before, List.forall_mem_cons.mpr ⟨ordered, after⟩⟩)

theorem scalingTree_shape : scalingTree.WellFormed ∧ scalingTree.CompoundsAlone ∧
    scalingTree.rootTerm.PlainTargets ∧ (scalingTree.term 21).attr? "name" = some "scale" := by
  decide +kernel

theorem runs_optimize_scaling : Runs (optimize scalingTable { optimize := true }) scalingTree
    ⟨3, 3⟩ scalingOptimized := by decide +kernel

def silent : Oracle := fun _ _ memory => (memory, .int 0)

def scalingStore : Store where
  self := some (.ref 0)
  vars name := if name = "n" then some (.int 3) else none
  world := ⟨⟨fun _ => .int 0, [.object "Scale"]⟩, []⟩

theorem runs_scaling : ∃ s', Runs (runMethod ⟨scalingTable, "scale", silent⟩ 0
    (scalingTree.term 21)) scalingStore (some (.int 7)) s' := exists_runs_of_fst (by decide +kernel)

theorem optimize_preserves_runs_scaling :
    check scalingTree = .ok (scalingTable, []) ∧ scalingTree.WellFormed ∧
    scalingTree.CompoundsAlone ∧ scalingTree.rootTerm.PlainTargets ∧
    Runs (optimize scalingTable { optimize := true }) scalingTree ⟨3, 3⟩ scalingOptimized ∧
    ∃ decl', scalingOptimized.classDecl = .ok decl' ∧
      ∃ m' ∈ decl'.childrenOfKind .methodDecl, ∃ s',
        Runs (runMethod ⟨scalingTable, "scale", silent⟩ 0 m') scalingStore (some (.int 7)) s' := by
  obtain ⟨wellFormed, alone, plain, named⟩ := scalingTree_shape
  refine ⟨check_scalingTree, wellFormed, alone, plain, runs_optimize_scaling, ?_⟩
  obtain ⟨decl, decl', hdecl, hdecl', same⟩ := optimize_preserves_runs check_scalingTree rfl
    wellFormed alone plain runs_optimize_scaling
  rw [declares_scalingTree.found] at hdecl
  rw [← Except.ok.inj hdecl, declares_scalingTree.listed] at same
  obtain ⟨m', rest, ⟨name, hname, -, runs⟩, -, hmethods⟩ := List.forall₂_cons_left_iff.mp same
  obtain rfl : "scale" = name := Option.some.inj (named.symm.trans hname)
  obtain ⟨s', run⟩ := runs_scaling
  exact ⟨decl', hdecl', m', by simp [hmethods], s', (runs silent 0 scalingStore).trans run⟩

end Scaling
end ClassCompiler
