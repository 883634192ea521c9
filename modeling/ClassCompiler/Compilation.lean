import ClassCompiler.FileError
import ClassCompiler.Lowering.Class
import ClassCompiler.Optimization.Rounds
import ClassCompiler.Registers.Allocation
import ClassCompiler.Review.Pipeline
import ClassCompiler.Syntax.Document

/-! The compilation of a class: check, optimize, lower, allocate registers. A class with
semantic errors is not lowered. -/

namespace ClassCompiler
set_option autoImplicit false

/-- Why there is no compilation at all. Errors of the class itself are reports instead. -/
inductive CompileError where
  | unreadable (error : FileError)
  | notADocument
  | malformed (fault : Fault)
  | badOption (error : OptionError)
  | lowering (method : String) (refusal : Refusal)
  deriving DecidableEq, Repr

namespace CompileError

def message : CompileError → String
  | unreadable error => "IO error: " ++ error.message
  | notADocument => "Invalid AST JSON"
  | malformed fault => "Malformed AST: " ++ fault.message
  | badOption error => "Configuration error: " ++ error.message
  | lowering method refusal =>
    "Lowering error in method '" ++ method ++ "': " ++ refusal.message

def cause? : CompileError → Option String
  | malformed fault => some fault.message
  | _ => none

def ofLoad : LoadError → CompileError
  | .notADocument => notADocument
  | .malformed fault => malformed fault

def ofLowering : LoweringError → CompileError
  | .malformed fault => malformed fault
  | .refused method refusal => lowering method refusal

end CompileError

/-- What a compilation yields: the tree after optimization, the symbol table, the reports
of the review and after them those of the allocation, and the class unless it has semantic
errors. -/
structure Compilation where
  tree : Tree
  table : SymbolTable
  reports : List Report
  unit : Option ClassUnit

namespace Compilation

def hasErrors (compilation : Compilation) : Bool := ClassCompiler.hasErrors compilation.reports

def codeText? (compilation : Compilation) : Option String := compilation.unit.map ClassUnit.text

end Compilation

/-- Optimizes and lowers a class that has been checked, and allocates its registers. -/
def compileChecked (tree : Tree) (table : SymbolTable) (reports : List Report)
    (options : Options) : Except CompileError Compilation := do
  match (optimize table options).run.run tree with
  | (.error fault, _) => .error (.malformed fault)
  | (.ok _, tree) =>
    let lowered ← (lowerClass tree table).mapError .ofLowering
    let (unit, allocationReports) := lowered.allocate options.registers
    return { tree, table, reports := reports ++ allocationReports, unit := some unit }

def compile (tree : Tree) (options : Options) : Except CompileError Compilation := do
  let (table, reports) ← (check tree).mapError .malformed
  if hasErrors reports then return { tree, table, reports, unit := none }
  else compileChecked tree table reports options

def compileText (text : String) (options : Options) : Except CompileError Compilation := do
  compile (← (Tree.load text).mapError .ofLoad) options

def compileFile (content : Except FileError String) (options : Options) :
    Except CompileError Compilation := do
  compileText (← content.mapError .unreadable) options

end ClassCompiler
