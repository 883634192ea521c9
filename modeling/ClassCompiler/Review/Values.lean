import ClassCompiler.Review.Check
import ClassCompiler.Symbols.Build
import ClassCompiler.Typing.Basic

/-! Checks of values that go somewhere: arguments, assigned values, array initializers and
returned values. -/

namespace ClassCompiler.Review
set_option autoImplicit false

/-- Checks a value against a type, except for an array initializer, whose place has a
check of its own. -/
def checkValue (subject : Subject) (scope : Scope) (value : Term)
    (wrong : TypeName → Option Finding) : Review Unit :=
  if value.kind = .arrayLiteral then pure ()
  else expectType subject scope value wrong

/-- Whether a call goes to the class itself, given the type of its receiver. -/
def isOwnCall (table : SymbolTable) (receiver : Term) (type : TypeName) : Bool :=
  receiver.kind = .thisRef || table.isOwnClass type

/-- Checks the arguments of a call of a declared method. Arguments for a variadic last
parameter are any number of values. -/
def checkArguments (subject : Subject) (scope : Scope) (call : Term) (method : String) :
    Review Unit := do
  let table := subject.table
  let parameters := table.parameters method
  let args := call.children.drop 1
  let variadic := table.isVarargs method
  let fixed := if variadic then parameters.length - 1 else parameters.length
  if if variadic then args.length < fixed else args.length ≠ fixed then
    report call (.argumentCount method fixed variadic args.length)
  else
    for ((arg, parameter), position) in (args.zip (parameters.take fixed)).zipIdx do
      checkValue subject scope arg fun found =>
        if table.assignable parameter.type found then none
        else some (.argumentType method (position + 1) parameter.type found)

/-- Checks a call. Nothing is known about the methods of other classes, nor about
inherited ones. -/
def checkCall (subject : Subject) (scope : Scope) (call : Term) : Review Unit := do
  let name ← require (call.requireAttr "name")
  let receiver ← require (call.child 0)
  if let some type ← typeOf subject scope receiver then
    if type.isPrimitive then
      report call (.callOnPrimitive name type)
    else if isOwnCall subject.table receiver type then
      if subject.table.hasMethod name then
        checkArguments subject scope call name
      else if !subject.table.hasSuper then
        report call (.undeclaredMethod name)

/-- Calls of the class's own methods fit their declarations. -/
def methodCalls : Check where
  name := "method-calls"
  run subject := atVisits subject fun visit =>
    if visit.term.kind = .methodCall then checkCall subject visit.scope visit.term else pure ()

/-- Checks an assigned value against the type of its target. -/
def checkAssigned (subject : Subject) (scope : Scope) (target : String) (expected : TypeName)
    (value : Term) : Review Unit :=
  checkValue subject scope value fun found =>
    if subject.table.assignable expected found then none
    else some (.incompatibleAssignment target expected found)

/-- The type of the target of an assignment, or none after a report. -/
def targetType (subject : Subject) (scope : Scope) (statement : Term) (name : String) :
    Review (Option TypeName) :=
  match subject.table.variableType scope.methodName? name with
  | .ok type => pure (some type)
  | .error error => do
    report statement (.untyped error)
    pure none

def checkAssign (subject : Subject) (scope : Scope) (statement : Term) : Review Unit := do
  let name ← require (statement.requireAttr "name")
  let value ← require (statement.child 0)
  if let some expected ← targetType subject scope statement name then
    checkAssigned subject scope name expected value

def checkArrayAssign (subject : Subject) (scope : Scope) (statement : Term) : Review Unit := do
  let name ← require (statement.requireAttr "name")
  let index ← require (statement.child 0)
  let value ← require (statement.child 1)
  if let some target ← targetType subject scope statement name then
    if !target.isArray && !target.isUnknown then
      report statement (.assignToNonArray name target)
    else
      expectType subject scope index fun type =>
        if !type.isInt && !type.isUnknown then some (.nonIntegerIndex type) else none
      let element := if target.isUnknown then target else target.elementType
      checkAssigned subject scope name element value

/-- Assigned values fit their targets. -/
def assignments : Check where
  name := "assignments"
  run subject := atVisits subject fun visit =>
    match visit.term.kind with
    | .assign => checkAssign subject visit.scope visit.term
    | .arrayAssign => checkArrayAssign subject visit.scope visit.term
    | _ => pure ()

/-- Whether a place of a type takes an array initializer. -/
def takesInitializer (type : TypeName) : Bool := type == .intArray || type.isUnknown

/-- Whether an argument of a call may be an array initializer. Of calls that go elsewhere
nothing is known, so there it may. -/
def argumentTakesInitializer (subject : Subject) (method : Option String) (call : Term)
    (position : Nat) : Except Fault Bool := do
  let table := subject.table
  let receiver ← call.child 0
  let name ← call.requireAttr "name"
  let own := receiver.kind = .thisRef
    || match table.exprType method receiver with
      | .ok type => table.isOwnClass type
      | .error _ => false
  if !own || !table.hasMethod name then return true
  let parameters := table.parameters name
  let parameter := match parameters[position - 1]? with
    | some parameter => some parameter
    | none => parameters.getLast?.filter (·.varargs)
  let taken := parameter.map fun parameter => parameter.varargs || takesInitializer parameter.type
  return taken.getD false

/-- Whether an array initializer stands where an array of integers is expected. -/
def initializerAllowed (subject : Subject) (method : Option String) (term : Term) :
    Except Fault Bool := do
  match subject.tree.parent? term.id with
  | none => return false
  | some parentId =>
    let parent := subject.tree.term parentId
    match parent.kind with
    | .assign =>
      match subject.table.variableType method (← parent.requireAttr "name") with
      | .ok type => return takesInitializer type
      | .error _ => return false
    | .ret =>
      return ((method.bind subject.table.returnType?).map takesInitializer).getD false
    | .methodCall =>
      match subject.tree.indexInParent? term.id with
      | none | some 0 => return false
      | some position => argumentTakesInitializer subject method parent position
    | _ => return false

def checkInitializer (subject : Subject) (scope : Scope) (term : Term) : Review Unit := do
  if ← require (initializerAllowed subject scope.methodName? term) then
    expectType subject scope term fun type =>
      if type = .intArray then none else some .misplacedArrayInitializer
  else
    report term .misplacedArrayInitializer

/-- Array initializers hold integers and stand where an array of them is expected. -/
def arrayInitializers : Check where
  name := "array-initializers"
  run subject := atVisits subject fun visit =>
    if visit.term.kind = .arrayLiteral then checkInitializer subject visit.scope visit.term
    else pure ()

def checkReturn (subject : Subject) (context : MethodContext) (declared : TypeName)
    (statement : Term) : Review Unit :=
  match statement.children with
  | [] =>
    if declared.isVoid then pure () else report statement (.missingReturnValue context.name)
  | value :: _ =>
    if declared.isVoid then report statement (.voidReturnWithValue context.name)
    else checkValue subject ⟨some context⟩ value fun found =>
      if subject.table.returnable declared found then none
      else some (.incompatibleReturn context.name declared found)

def checkReturns (subject : Subject) (decl : Term) : Review Unit := do
  let context ← require (MethodContext.of decl)
  let (declared, _) ← require (TypeName.ofDecl decl)
  let statements := decl.descendantsOfKind .ret
  if !declared.isVoid && statements.isEmpty then
    report decl (.missingReturn context.name)
  else
    statements.forM (checkReturn subject context declared)

/-- Methods with a result return one that fits, and void methods return none. -/
def returns : Check where
  name := "returns"
  run subject := do (← methods subject).forM (checkReturns subject)

end ClassCompiler.Review
