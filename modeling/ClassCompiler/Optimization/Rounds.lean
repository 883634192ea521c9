import ClassCompiler.Optimization.Folding
import ClassCompiler.Optimization.Propagation
import ClassCompiler.Options

/-! Rounds of simplification: each runs all simplifications in order, until a round
replaces nothing or there have been enough. -/

namespace ClassCompiler
set_option autoImplicit false

/-- The rounds that were run, and the expressions replaced in them. -/
structure OptimizationSummary where
  rounds : Nat := 0
  replacements : Nat := 0
  deriving DecidableEq, Repr

namespace Optimization

def round (table : SymbolTable) : List Simplification → Edit Nat
  | [] => return 0
  | simplification :: rest => do
    let count ← simplification.run table
    let others ← round table rest
    return count + others

/-- A number of rounds at most, after those of a summary. -/
def run (simplifications : List Simplification) (table : SymbolTable) :
    Nat → OptimizationSummary → Edit OptimizationSummary
  | 0, summary => return summary
  | left + 1, summary => do
    let changed ← round table simplifications
    let summary := ⟨summary.rounds + 1, summary.replacements + changed⟩
    if changed = 0 then return summary else run simplifications table left summary

end Optimization

/-- Folding and propagation, if the options ask for them. -/
def optimize (table : SymbolTable) (options : Options) : Edit OptimizationSummary :=
  if options.optimize then
    Optimization.run [constantFolding, constantPropagation] table options.rounds {}
  else return {}

end ClassCompiler
