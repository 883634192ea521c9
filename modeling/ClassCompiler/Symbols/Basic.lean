import ClassCompiler.Syntax.TypeName

/-! The symbol table of a class: its imports, its superclass, its fields and the
signatures of its methods, and what a name means inside a method. -/

namespace ClassCompiler
set_option autoImplicit false

/-- A variable with its type; a variadic parameter has an array type. -/
structure Symbol where
  name : String
  type : TypeName
  varargs : Bool := false
  deriving DecidableEq, Repr

/-- What is declared about a method. -/
structure Signature where
  returnType : TypeName
  parameters : List Symbol
  locals : List Symbol
  isStatic : Bool
  deriving DecidableEq, Repr

/-- The part of a dotted path after its last dot. -/
def simpleName (path : String) : String :=
  String.ofList (path.toList.reverse.takeWhile (· ≠ '.')).reverse

/-- The declarations of a class. The superclass is the empty text when there is none. Of
two methods with one name both are listed, and the first has the signature. -/
structure SymbolTable where
  className : String
  superName : String
  imports : List String
  fields : List Symbol
  methods : List String
  signatures : List (String × Signature)
  deriving DecidableEq, Repr

/-- What a name means where it is used. -/
inductive Reference where
  | localVar (symbol : Symbol)
  | parameter (index : Nat) (symbol : Symbol)
  | field (symbol : Symbol)
  | imported (simple : String)
  | unresolved
  deriving DecidableEq, Repr

namespace Reference

def symbol? : Reference → Option Symbol
  | localVar symbol | parameter _ symbol | field symbol => some symbol
  | imported _ | unresolved => none

def isResolved : Reference → Bool
  | unresolved => false
  | _ => true

def isLocal : Reference → Bool
  | localVar _ => true
  | _ => false

end Reference

namespace SymbolTable

def hasSuper (table : SymbolTable) : Bool := table.superName ≠ ""

/-- The names under which the imports are used. -/
def importNames (table : SymbolTable) : List String := table.imports.map simpleName

def isImported (table : SymbolTable) (simple : String) : Bool := table.importNames.contains simple

def field? (table : SymbolTable) (name : String) : Option Symbol :=
  table.fields.find? fun field => field.name == name

def signature? (table : SymbolTable) (method : String) : Option Signature :=
  (table.signatures.find? fun entry => entry.1 == method).map (·.2)

def hasMethod (table : SymbolTable) (name : String) : Bool := (table.signature? name).isSome

def returnType? (table : SymbolTable) (method : String) : Option TypeName :=
  (table.signature? method).map (·.returnType)

def parameters (table : SymbolTable) (method : String) : List Symbol :=
  ((table.signature? method).map (·.parameters)).getD []

def locals (table : SymbolTable) (method : String) : List Symbol :=
  ((table.signature? method).map (·.locals)).getD []

def isStatic (table : SymbolTable) (method : String) : Bool :=
  ((table.signature? method).map (·.isStatic)).getD false

/-- Whether the last parameter of a method takes any number of arguments. -/
def isVarargs (table : SymbolTable) (method : String) : Bool :=
  ((table.parameters method).getLast?.map (·.varargs)).getD false

def local? (table : SymbolTable) (method name : String) : Option Symbol :=
  (table.locals method).find? fun symbol => symbol.name == name

def parameter? (table : SymbolTable) (method name : String) : Option (Nat × Symbol) :=
  let parameters := table.parameters method
  match parameters.findIdx? (fun symbol => symbol.name == name) with
  | some index => parameters[index]?.map fun symbol => (index, symbol)
  | none => none

/-- Whether a type is the class of the table. -/
def isOwnClass (table : SymbolTable) (type : TypeName) : Bool :=
  !type.isArray && type.name == table.className

/-- What a name means outside every method: a field, or else an import. -/
def resolveMember (table : SymbolTable) (name : String) : Reference :=
  match table.field? name with
  | some field => .field field
  | none => if table.isImported name then .imported name else .unresolved

/-- What a name means: inside a method its locals come first and its parameters next. -/
def resolve (table : SymbolTable) (method : Option String) (name : String) : Reference :=
  match method with
  | none => table.resolveMember name
  | some method =>
    match table.local? method name with
    | some symbol => .localVar symbol
    | none =>
      match table.parameter? method name with
      | some (index, symbol) => .parameter index symbol
      | none => table.resolveMember name

end SymbolTable
end ClassCompiler
