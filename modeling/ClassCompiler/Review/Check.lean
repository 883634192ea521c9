import ClassCompiler.Report
import ClassCompiler.Review.Finding
import ClassCompiler.Syntax.Walk

/-! Checks. A check looks at a tree and its symbol table and adds reports; on a malformed
tree it ends with a fault, and the reports added before stay. -/

namespace ClassCompiler
set_option autoImplicit false

/-- What every check looks at. -/
structure Subject where
  tree : Tree
  table : SymbolTable

/-- A computation that adds reports and may end with a fault. -/
abbrev Review := ExceptT Fault (StateM (List Report))

/-- A named check. -/
structure Check where
  name : String
  run : Subject → Review Unit

namespace Review

def push (report : Report) : Review Unit := modify (· ++ [report])

def report (term : Term) (finding : Finding) : Review Unit :=
  push (.semanticError term.location finding.message)

/-- What has to hold of a well-formed tree. -/
def require {α : Type} (value : Except Fault α) : Review α :=
  match value with
  | .ok value => pure value
  | .error fault => throw fault

/-- The type of an expression, or none after a report of why it has none. A malformed
expression ends the check. -/
def typeOf (subject : Subject) (scope : Scope) (term : Term) : Review (Option TypeName) :=
  match subject.table.exprType scope.methodName? term with
  | .ok type => pure (some type)
  | .error (.malformed fault) => throw fault
  | .error error => do
    report term (.untyped error)
    pure none

def expectType (subject : Subject) (scope : Scope) (term : Term)
    (wrong : TypeName → Option Finding) : Review Unit := do
  if let some type ← typeOf subject scope term then
    if let some finding := wrong type then
      report term finding

/-- Does something at every visit of the walk from the root. -/
def atVisits (subject : Subject) (action : Visit → Review Unit) : Review Unit := do
  let walk := subject.tree.rootTerm.walk {}
  walk.visits.forM action
  if let some fault := walk.fault then
    throw fault

def methods (subject : Subject) : Review (List Term) := do
  return (← require subject.tree.classDecl).childrenOfKind .methodDecl

end Review
end ClassCompiler
