import ClassCompiler.Optimization.Edit
import ClassCompiler.Syntax.Operator
import ClassCompiler.Text.Numeral

/-! Constant folding: an arithmetic operation on two integer literals that is the value
of an assignment becomes a literal. -/

namespace ClassCompiler.Folding
set_option autoImplicit false

def literalValue (term : Term) : Except Fault Int32 := do
  let text ← term.requireAttr "value"
  match Text.int32? text with
  | some value => .ok value
  | none => .error (.invalidLiteral text)

/-- The arithmetic operator of a term that is directly below an assignment. -/
def foldableOperator? (tree : Tree) (term : Term) : Option BinaryOperator := do
  if term.kind ≠ .binaryOp then none
  else if (tree.parent? term.id).map tree.kind ≠ some .assign then none
  else
    let op ← BinaryOperator.ofSymbol? (← term.attr? "op")
    if op.family = .arithmetic then some op else none

/-- The number that may stand for a term. -/
def foldedValue? (tree : Tree) (term : Term) : Except Fault (Option Int32) :=
  match foldableOperator? tree term with
  | none => .ok none
  | some op => do
    let lhs ← term.child 0
    let rhs ← term.child 1
    if lhs.kind = .intLiteral && rhs.kind = .intLiteral then
      return op.fold? (← literalValue lhs) (← literalValue rhs)
    else return none

/-- The nodes to be replaced and the numbers to stand for them. -/
def sites (tree : Tree) : List Term → Except Fault (List (NodeId × Int32))
  | [] => .ok []
  | term :: terms => do
    match ← foldedValue? tree term with
    | some value => return (term.id, value) :: (← sites tree terms)
    | none => sites tree terms

/-- Folds all that can be folded. All the sites are found before the first is changed. -/
def fold : Edit Nat := do
  let tree ← get
  match sites tree tree.rootTerm.descendants with
  | .error fault => throw fault
  | .ok found =>
    for (id, value) in found do
      let _ ← Edit.putLiteral id ⟨.intLiteral, Text.ofInt32 value⟩
    return found.length

end ClassCompiler.Folding

namespace ClassCompiler

def constantFolding : Simplification where
  name := "constant-folding"
  run _ := Folding.fold

end ClassCompiler
