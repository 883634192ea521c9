import ClassCompiler.Symbols.Basic
import ClassCompiler.Syntax.Operator
import ClassCompiler.Syntax.Term

/-! The type of an expression, and when a value of one type may stand where another is declared.
Operands are looked at only where the type depends on them; whether they fit is a matter of
review. -/

namespace ClassCompiler
set_option autoImplicit false

/-- Why an expression has no type. -/
inductive TypeError where
  | undefinedIdentifier (name : String)
  | notAnArray (type : TypeName)
  | mixedInitializer (first other : TypeName)
  | unknownOperator (symbol : String)
  | notAnExpression (kind : Kind)
  | malformed (fault : Fault)
  deriving DecidableEq, Repr

def TypeError.message : TypeError → String
  | .undefinedIdentifier name => "undefined identifier '" ++ name ++ "'"
  | .notAnArray type => "expression of type '" ++ type.text ++ "' is not an array"
  | .mixedInitializer first other =>
    "array initializer mixes element types '" ++ first.text ++ "' and '" ++ other.text ++ "'"
  | .unknownOperator symbol => "unknown operator '" ++ symbol ++ "'"
  | .notAnExpression kind => kind.name ++ " is not an expression"
  | .malformed fault => fault.message

namespace SymbolTable

/-- The type of a variable; the name of an import has the imported class as its type. -/
def variableType (table : SymbolTable) (method : Option String) (name : String) :
    Except TypeError TypeName :=
  match table.resolve method name with
  | .localVar symbol | .parameter _ symbol | .field symbol => .ok symbol.type
  | .imported simple => .ok (.ofClass simple)
  | .unresolved => .error (.undefinedIdentifier name)

def exprAttr (term : Term) (key : String) : Except TypeError String :=
  (term.requireAttr key).mapError .malformed

/-- The type of a call, given the receiver and its type: that of the own class's method,
and otherwise unknown. -/
def callType (table : SymbolTable) (receiver : Term) (receiverType : TypeName) (method : String) :
    TypeName :=
  if receiver.kind = .thisRef || table.isOwnClass receiverType then
    (table.returnType? method).getD .unknown
  else .unknown

def elementType (base : TypeName) : Except TypeError TypeName :=
  if base.isUnknown then .ok base
  else if base.isArray then .ok base.elementType
  else .error (.notAnArray base)

mutual

def exprType (table : SymbolTable) (method : Option String) : Term → Except TypeError TypeName
  | .node id label children =>
    let self := Term.node id label children
    match label.kind with
    | .intLiteral | .arrayLength => .ok .int
    | .booleanLiteral => .ok .boolean
    | .thisRef => .ok (.ofClass table.className)
    | .newIntArray => .ok .intArray
    | .newObject => (exprAttr self "name").map .ofClass
    | .identifier => do table.variableType method (← exprAttr self "name")
    | .paren =>
      match children with
      | [] => .error (.malformed (self.lacksChild 0))
      | inner :: _ => exprType table method inner
    | .unaryOp => do
      let symbol ← exprAttr self "op"
      match UnaryOperator.ofSymbol? symbol with
      | some .not => .ok .boolean
      | some .neg => .ok .int
      | none => .error (.unknownOperator symbol)
    | .binaryOp => do
      let symbol ← exprAttr self "op"
      match BinaryOperator.ofSymbol? symbol with
      | none => .error (.unknownOperator symbol)
      | some op =>
        match op.family with
        | .arithmetic => .ok .int
        | .relational | .equality | .logical => .ok .boolean
        | .compoundAssign =>
          match children with
          | [] => .error (.malformed (self.lacksChild 0))
          | target :: _ => exprType table method target
    | .arrayAccess =>
      match children with
      | [] => .error (.malformed (self.lacksChild 0))
      | base :: _ => do elementType (← exprType table method base)
    | .methodCall =>
      match children with
      | [] => .error (.malformed (self.lacksChild 0))
      | receiver :: _ => do
        let receiverType ← exprType table method receiver
        return table.callType receiver receiverType (← exprAttr self "name")
    | .arrayLiteral =>
      match children with
      | [] => .ok .intArray
      | first :: others => do
        let type ← exprType table method first
        agreeAll table method type others
        return type.arrayOf
    | kind => .error (.notAnExpression kind)

/-- Whether every element of an initializer has the type of the first one. -/
def agreeAll (table : SymbolTable) (method : Option String) (first : TypeName) :
    List Term → Except TypeError Unit
  | [] => .ok ()
  | element :: elements => do
    let other ← exprType table method element
    if other = first then agreeAll table method first elements
    else .error (.mixedInitializer first other)

end

/-- Whether a value may be assigned: the types are equal, one is unknown, or the class
goes to its superclass. -/
def assignable (table : SymbolTable) (target value : TypeName) : Bool :=
  target.isUnknown || value.isUnknown || target == value
    || (!target.isArray && !value.isArray && table.hasSuper
      && target.name == table.superName && value.name == table.className)

/-- Whether a value may be returned: it may be assigned, or both types are imported
classes. -/
def returnable (table : SymbolTable) (declared found : TypeName) : Bool :=
  table.assignable declared found
    || (declared.isClass && found.isClass
      && table.isImported declared.name && table.isImported found.name)

end SymbolTable
end ClassCompiler
