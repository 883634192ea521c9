import ClassCompiler.Lowering.Frame
import ClassCompiler.Symbols.Basic
import ClassCompiler.Syntax.Term

/-! Lowering of expressions. An expression becomes the code that has to run first and the
value that it yields then; operands come in the order in which they are evaluated. -/

namespace ClassCompiler.Lowering
set_option autoImplicit false

/-- What an expression yields, and the code that has to run before. -/
structure Lowered where
  value : Value
  code : List Instruction := []

/-- A lowered expression as a simple element and the code that computes it. -/
def Lowered.simple (lowered : Lowered) : Lowering (Element × List Instruction) := do
  let (element, code) ← materialize lowered.value
  return (element, lowered.code ++ code)

/-- An index as a named operand: a literal is put into a temporary. -/
def nameIndex (index : Element × List Instruction) : Lowering (Element × List Instruction) := do
  let (element, code) := index
  if element.isLiteral then
    let temporary ← freshTemporary .int
    return (temporary, code ++ [.assign temporary (.single element)])
  else return (element, code)

/-- Stores elements into an array, from a position on, with a temporary for each index. -/
def storeElements (array : String) (type : CodeType) :
    Nat → List Element → Lowering (List Instruction)
  | _, [] => return []
  | position, element :: elements => do
    let index ← freshTemporary .int
    let rest ← storeElements array type (position + 1) elements
    return [.assign index (.single (.literal (toString position) .int)),
      .assign (.arrayOperand array index type) (.single element)] ++ rest

/-- A new array that holds elements. -/
def pack (elements : List Element) (type : CodeType) : Lowering (Element × List Instruction) := do
  let name ← freshName (.array type)
  let array := Element.operand name (.array type)
  let size := Element.literal (toString elements.length) .int
  let stores ← storeElements name type 0 elements
  return (array, .assign array (.newArray size type) :: stores)

/-- The arguments of a call of a variadic method: those after the fixed ones go into one
array, unless the one argument there is an array of integers itself. -/
def packVarargs (table : SymbolTable) (method : String) (args : List Element) :
    Lowering (List Element × List Instruction) := do
  let fixed := (table.parameters method).length - 1
  if args.length = fixed + 1 && (args[fixed]?.map Element.type) = some .intArray then
    return (args, [])
  else
    let (array, code) ← pack (args.drop fixed) .int
    return (args.take fixed ++ [array], code)

/-- A variable, a field of the object, or the name of an imported class. -/
def lowerIdentifier (table : SymbolTable) (term : Term) : Lowering Lowered := do
  let name ← require (term.requireAttr "name")
  match table.resolve (some (← get).method) name with
  | .localVar symbol | .parameter _ symbol =>
    return ⟨.element (.operand name (.ofTypeName symbol.type)), []⟩
  | .field symbol =>
    let type := CodeType.ofTypeName symbol.type
    noteField name type
    return ⟨.getField name type, []⟩
  | .imported simple => return ⟨.classRef simple, []⟩
  | .unresolved => refuse (.unresolvedIdentifier name)

/-- An assignment to a new temporary, after code. -/
def assignFresh (code : List Instruction) (type : CodeType) (rhs : Rhs) : Lowering Lowered := do
  let temporary ← freshTemporary type
  return ⟨.element temporary, code ++ [.assign temporary rhs]⟩

/-- The type of the result of an operator that is no compound assignment. -/
def resultType (op : BinaryOperator) : CodeType :=
  match op.family with
  | .arithmetic => .int
  | _ => .bool

def unaryType : UnaryOperator → CodeType
  | .not => .bool
  | .neg => .int

/-- The receiver of a call: a class by its name, or else an object. -/
def receiverOf (lowered : Lowered) : Lowering (Invocation × List Instruction) := do
  match lowered.value with
  | .classRef name => return (.static name, lowered.code)
  | _ =>
    let (target, code) ← lowered.simple
    return (.virtual target, code)

/-- Whether a call goes to a declared method of the class. -/
def isDeclaredCall (table : SymbolTable) (invocation : Invocation) (method : String) : Bool :=
  match invocation with
  | .virtual target => target.type = .object table.className && table.hasMethod method
  | _ => false

/-- A call with its arguments. The type of what it returns is the declared one, or else the
one that is expected, or else that of an integer. -/
def finishCall (table : SymbolTable) (hint : Option CodeType) (method : String)
    (invocation : Invocation) (args : List Element) (code : List Instruction) :
    Lowering Lowered := do
  if isDeclaredCall table invocation method then
    let (args, packing) ←
      if table.isVarargs method then packVarargs table method args else pure (args, [])
    let returnType := ((table.returnType? method).map CodeType.ofTypeName).getD (hint.getD .int)
    return ⟨.call { invocation, method, args, returnType }, code ++ packing⟩
  else
    return ⟨.call { invocation, method, args, returnType := hint.getD .int }, code⟩

def elementOf (base index : Element) (code : List Instruction) : Lowering Lowered :=
  match base with
  | .operand name (.array type) => return ⟨.element (.arrayOperand name index type), code⟩
  | other => refuse (.notIndexable other)

/-- A new object and the call of its constructor. -/
def lowerNewObject (name : String) : Lowering Lowered := do
  let temporary ← freshTemporary (.object name)
  let construct : Call :=
    { invocation := .special temporary, method := "<init>", args := [], returnType := .void }
  return ⟨.element temporary, [.assign temporary (.newObject name), .call construct]⟩

mutual

/-- Lowers an expression. The hint is the type that the context expects; it is used for
calls whose type is not known. -/
def lowerExpr (table : SymbolTable) (hint : Option CodeType) : Term → Lowering Lowered
  | .node id label children =>
    let self := Term.node id label children
    match label.kind with
    | .intLiteral => do
      let value ← require (self.requireAttr "value")
      return ⟨.element (.literal value .int), []⟩
    | .booleanLiteral =>
      return ⟨.element (.literal (if self.flag "value" then "1" else "0") .bool), []⟩
    | .thisRef => do return ⟨.element (← Lowering.self), []⟩
    | .paren =>
      match children with
      | [] => throw (.malformed (self.lacksChild 0))
      | inner :: _ => lowerExpr table hint inner
    | .identifier => lowerIdentifier table self
    | .binaryOp => do
      let symbol ← require (self.requireAttr "op")
      match BinaryOperator.ofSymbol? symbol with
      | none => refuse (.unknownOperator symbol)
      | some op =>
        match children with
        | [] => throw (.malformed (self.lacksChild 0))
        | [_] => throw (.malformed (self.lacksChild 1))
        | left :: right :: _ =>
          match op.compoundBase? with
          | some base =>
            let place ← lowerExpr table none left
            let (current, read) ← materialize place.value
            let (operand, code) ← (← lowerExpr table none right).simple
            let result ← freshTemporary current.type
            let write ← store place.value result
            return ⟨.element result, place.code ++ read ++ code
              ++ [.assign result (.binary base current operand current.type), write]⟩
          | none =>
            let (lhs, leftCode) ← (← lowerExpr table none left).simple
            let (rhs, rightCode) ← (← lowerExpr table none right).simple
            let type := resultType op
            assignFresh (leftCode ++ rightCode) type (.binary op lhs rhs type)
    | .unaryOp => do
      let symbol ← require (self.requireAttr "op")
      match UnaryOperator.ofSymbol? symbol with
      | none => refuse (.unknownOperator symbol)
      | some op =>
        match children with
        | [] => throw (.malformed (self.lacksChild 0))
        | inner :: _ =>
          let (operand, code) ← (← lowerExpr table none inner).simple
          assignFresh code (unaryType op) (.unary op operand (unaryType op))
    | .arrayAccess =>
      match children with
      | [] => throw (.malformed (self.lacksChild 0))
      | base :: rest => do
        let (base, baseCode) ← (← lowerExpr table (some .intArray) base).simple
        match rest with
        | [] => throw (.malformed (self.lacksChild 1))
        | index :: _ =>
          let (index, indexCode) ← nameIndex (← (← lowerExpr table none index).simple)
          elementOf base index (baseCode ++ indexCode)
    | .arrayLength =>
      match children with
      | [] => throw (.malformed (self.lacksChild 0))
      | base :: _ => do
        let (array, code) ← (← lowerExpr table (some .intArray) base).simple
        assignFresh code .int (.arrayLength array)
    | .methodCall => do
      let method ← require (self.requireAttr "name")
      match children with
      | [] => throw (.malformed (self.lacksChild 0))
      | receiver :: args =>
        let (invocation, code) ← receiverOf (← lowerExpr table none receiver)
        let (args, argsCode) ← lowerAll table args
        finishCall table hint method invocation args (code ++ argsCode)
    | .newObject => do lowerNewObject (← require (self.requireAttr "name"))
    | .newIntArray =>
      match children with
      | [] => throw (.malformed (self.lacksChild 0))
      | size :: _ => do
        let (size, code) ← (← lowerExpr table none size).simple
        assignFresh code .intArray (.newArray size .int)
    | .arrayLiteral => do
      let (elements, code) ← lowerAll table children
      let type := (elements.head?.map Element.type).getD .int
      let (array, packing) ← pack elements type
      return ⟨.element array, code ++ packing⟩
    | kind => throw (.malformed (.unexpectedNode id kind))

def lowerAll (table : SymbolTable) : List Term → Lowering (List Element × List Instruction)
  | [] => return ([], [])
  | term :: terms => do
    let (element, code) ← (← lowerExpr table none term).simple
    let (elements, rest) ← lowerAll table terms
    return (element :: elements, code ++ rest)

end

def lowerSimple (table : SymbolTable) (hint : Option CodeType) (term : Term) :
    Lowering (Element × List Instruction) := do
  (← lowerExpr table hint term).simple

/-- Lowers an index to a named operand. -/
def lowerIndex (table : SymbolTable) (term : Term) : Lowering (Element × List Instruction) := do
  nameIndex (← lowerSimple table none term)

end ClassCompiler.Lowering
