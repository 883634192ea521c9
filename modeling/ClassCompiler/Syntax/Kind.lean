/-! The kinds of syntax nodes: declarations, statements and expressions. -/

namespace ClassCompiler
set_option autoImplicit false

/-- What a syntax node is. -/
inductive Kind where
  | program | importDecl | classDecl | varDecl | methodDecl | param | typeName
  | block | ifElse | whileLoop | forLoop | exprStmt | assign | arrayAssign | ret
  | binaryOp | unaryOp | paren | arrayAccess | arrayLength | methodCall | newIntArray
  | newObject | arrayLiteral | intLiteral | booleanLiteral | identifier | thisRef
  deriving DecidableEq, Repr, Inhabited

namespace Kind

def name : Kind → String
  | program => "Program"
  | importDecl => "ImportDecl"
  | classDecl => "ClassDecl"
  | varDecl => "VarDecl"
  | methodDecl => "MethodDecl"
  | param => "Param"
  | typeName => "Type"
  | block => "Block"
  | ifElse => "If"
  | whileLoop => "While"
  | forLoop => "For"
  | exprStmt => "ExprStmt"
  | assign => "Assign"
  | arrayAssign => "ArrayAssign"
  | ret => "Return"
  | binaryOp => "BinaryOp"
  | unaryOp => "UnaryOp"
  | paren => "Paren"
  | arrayAccess => "ArrayAccess"
  | arrayLength => "ArrayLength"
  | methodCall => "MethodCall"
  | newIntArray => "NewIntArray"
  | newObject => "NewObject"
  | arrayLiteral => "ArrayLiteral"
  | intLiteral => "IntLiteral"
  | booleanLiteral => "BooleanLiteral"
  | identifier => "Identifier"
  | thisRef => "This"

def all : List Kind :=
  [program, importDecl, classDecl, varDecl, methodDecl, param, typeName,
   block, ifElse, whileLoop, forLoop, exprStmt, assign, arrayAssign, ret,
   binaryOp, unaryOp, paren, arrayAccess, arrayLength, methodCall, newIntArray,
   newObject, arrayLiteral, intLiteral, booleanLiteral, identifier, thisRef]

def ofName? (name : String) : Option Kind := all.find? fun kind => kind.name == name

def isStatement : Kind → Bool
  | block | ifElse | whileLoop | forLoop | exprStmt | assign | arrayAssign | ret => true
  | _ => false

def isExpression : Kind → Bool
  | binaryOp | unaryOp | paren | arrayAccess | arrayLength | methodCall | newIntArray
  | newObject | arrayLiteral | intLiteral | booleanLiteral | identifier | thisRef => true
  | _ => false

def isLiteral : Kind → Bool
  | intLiteral | booleanLiteral => true
  | _ => false

@[simp] theorem ofName?_name (kind : Kind) : ofName? kind.name = some kind := by
  cases kind <;> decide

theorem name_of_ofName? {name : String} {kind : Kind} (h : ofName? name = some kind) :
    kind.name = name := by
  simpa using List.find?_some h

end Kind
end ClassCompiler
