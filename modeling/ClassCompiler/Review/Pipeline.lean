import ClassCompiler.Review.Declarations
import ClassCompiler.Review.Names
import ClassCompiler.Review.Operands
import ClassCompiler.Review.Values

/-! The review of a class: checks in order, up to the first that reports an error. -/

namespace ClassCompiler
set_option autoImplicit false

/-- What a check reports on its own, and the fault that ended it. -/
def Check.outcome (check : Check) (subject : Subject) : List Report × Option Fault :=
  match (check.run subject).run.run [] with
  | (.ok _, reports) => (reports, none)
  | (.error fault, reports) => (reports, some fault)

/-- The reports of checks in order. A check that ends with a fault adds one error without
a place and does not end the review; any other check that reports an error does. -/
def review (subject : Subject) : List Check → List Report
  | [] => []
  | check :: checks =>
    match check.outcome subject with
    | (reports, some fault) =>
      reports ++ [.unlocated .semantic (Finding.checkFault check.name fault).message]
        ++ review subject checks
    | (reports, none) =>
      if hasErrors reports then reports else reports ++ review subject checks

/-- The thirteen checks of a class, in the order in which they run. -/
def standardChecks : List Check :=
  [Review.duplicateDeclarations, Review.undeclaredVariables, Review.declarationOrder,
   Review.voidVariables, Review.operatorTypes, Review.arrayAccess, Review.methodCalls,
   Review.assignments, Review.conditions, Review.arrayInitializers, Review.varargs,
   Review.staticContext, Review.returns]

/-- The symbol table of a tree and the reports of its review. -/
def check (tree : Tree) : Except Fault (SymbolTable × List Report) := do
  let table ← SymbolTable.build tree
  return (table, review ⟨tree, table⟩ standardChecks)

end ClassCompiler
