import ClassCompiler.Review.Check

/-! Checks of operands: those of operators, the bases and indices of arrays, and
conditions. An operand of unknown type fits everywhere. -/

namespace ClassCompiler.Review
set_option autoImplicit false

/-- Whether an operand may stand for an integer. -/
def fitsInt (type : TypeName) : Bool := type.isUnknown || type.isInt

/-- Whether an operand may stand for a truth value. -/
def fitsBoolean (type : TypeName) : Bool := type.isUnknown || type.isBoolean

/-- What is wrong with the operands of a binary operator. -/
def operandFinding? (op : BinaryOperator) (lhs rhs : TypeName) : Option Finding :=
  let orWrong (valid : Bool) := if valid then none else some (Finding.invalidOperands op lhs rhs)
  match op.family with
  | .arithmetic | .compoundAssign =>
    if lhs.isArray || rhs.isArray then some (.arrayInArithmetic op)
    else orWrong (fitsInt lhs && fitsInt rhs)
  | .relational => orWrong (fitsInt lhs && fitsInt rhs)
  | .logical => orWrong (fitsBoolean lhs && fitsBoolean rhs)
  | .equality => orWrong (lhs.isUnknown || rhs.isUnknown || lhs == rhs)

def checkBinary (subject : Subject) (scope : Scope) (term : Term) : Review Unit := do
  let symbol ← require (term.requireAttr "op")
  match BinaryOperator.ofSymbol? symbol with
  | none => report term (.untyped (.unknownOperator symbol))
  | some op =>
    let left ← require (term.child 0)
    let right ← require (term.child 1)
    if let some lhs ← typeOf subject scope left then
      if let some rhs ← typeOf subject scope right then
        if let some finding := operandFinding? op lhs rhs then
          report term finding

def checkUnary (subject : Subject) (scope : Scope) (term : Term) : Review Unit := do
  let symbol ← require (term.requireAttr "op")
  match UnaryOperator.ofSymbol? symbol with
  | none => report term (.untyped (.unknownOperator symbol))
  | some op =>
    if let some operand ← typeOf subject scope (← require (term.child 0)) then
      let valid := match op with
        | .not => fitsBoolean operand
        | .neg => fitsInt operand
      if !valid then
        report term (.invalidOperand op operand)

/-- Operators have operands of their types. -/
def operatorTypes : Check where
  name := "operator-types"
  run subject := atVisits subject fun visit =>
    match visit.term.kind with
    | .binaryOp => checkBinary subject visit.scope visit.term
    | .unaryOp => checkUnary subject visit.scope visit.term
    | _ => pure ()

/-- What is wrong with the type of an index. -/
def indexFinding? (type : TypeName) : Option Finding :=
  if type.isArray || !fitsInt type then some (.nonIntegerIndex type) else none

def arrayFinding? (finding : TypeName → Finding) (type : TypeName) : Option Finding :=
  if !type.isArray && !type.isUnknown then some (finding type) else none

/-- What is indexed or measured is an array, and an index is an integer. -/
def arrayAccess : Check where
  name := "array-access"
  run subject := atVisits subject fun visit => do
    match visit.term.kind with
    | .arrayAccess =>
      let base ← require (visit.term.child 0)
      let index ← require (visit.term.child 1)
      expectType subject visit.scope base (arrayFinding? .indexedNonArray)
      expectType subject visit.scope index indexFinding?
    | .arrayLength =>
      let base ← require (visit.term.child 0)
      expectType subject visit.scope base (arrayFinding? .lengthOfNonArray)
    | _ => pure ()

/-- The place of the condition among the children of a statement. -/
def conditionIndex? : Kind → Option Nat
  | .ifElse | .whileLoop => some 0
  | .forLoop => some 1
  | _ => none

/-- Conditions are truth values. -/
def conditions : Check where
  name := "conditions"
  run subject := atVisits subject fun visit => do
    if let some index := conditionIndex? visit.term.kind then
      let condition ← require (visit.term.child index)
      expectType subject visit.scope condition fun type =>
        if fitsBoolean type then none else some (.nonBooleanCondition type)

end ClassCompiler.Review
