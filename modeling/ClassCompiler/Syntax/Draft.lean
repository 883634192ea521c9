import ClassCompiler.Syntax.Tree
import ClassCompiler.Syntax.TypeName

/-! Trees under construction. Children are made before their parent, which links them;
every operation gives the number of the node that it made. -/

namespace ClassCompiler
set_option autoImplicit false

/-- The nodes made so far. -/
structure Draft where
  nodes : Array Node := #[]
  deriving Inhabited

abbrev Construction := StateM Draft

namespace Draft

/-- Makes nodes the last children of another. -/
def attach (parent : NodeId) (children : List NodeId) : Construction Unit :=
  children.forM fun child => modify fun draft =>
    let nodes := draft.nodes.modify child fun node => { node with parent := some parent }
    { nodes := nodes.modify parent fun node => { node with children := node.children ++ [child] } }

def make (kind : Kind) (location : Location) (attrs : List (String × String))
    (children : List NodeId) : Construction NodeId := do
  let id := (← get).nodes.size
  let label := { kind, attrs := NameMap.ofList attrs, location }
  modify fun draft => { nodes := draft.nodes.push { label } }
  attach id children
  return id

/-- Makes a node at the first column of a line. -/
def atLine (kind : Kind) (line : UInt32) (attrs : List (String × String))
    (children : List NodeId) : Construction NodeId :=
  make kind ⟨line, 1⟩ attrs children

def setColumn (id : NodeId) (column : UInt32) : Construction Unit :=
  modify fun draft =>
    { nodes := draft.nodes.modify id fun node =>
        { node with label.location.column := column } }

def finish (draft : Draft) (root : NodeId) : Tree := ⟨draft.nodes, root⟩

/-- Makes a program of imports and a class. -/
def program (imports : List String) (decl : NodeId) : Construction NodeId := do
  let imported ← imports.mapM fun path => atLine .importDecl 1 [("name", path)] []
  atLine .program 1 [] (imported ++ [decl])

def boolText (value : Bool) : String := if value then "true" else "false"

def typeNode (type : TypeName) (varargs : Bool) (line : UInt32) : Construction NodeId :=
  atLine .typeName line
    [("name", type.name), ("isArray", boolText type.isArray), ("isVarargs", boolText varargs)] []

def classDecl (name : String) (superclass : Option String) (members : List NodeId)
    (line : UInt32) : Construction NodeId :=
  let inherits := superclass.toList.map fun parent => ("extends", parent)
  atLine .classDecl line (("name", name) :: inherits) members

def varDecl (name : String) (type : TypeName) (line : UInt32) : Construction NodeId := do
  atLine .varDecl line [("name", name)] [← typeNode type false line]

def varargsVarDecl (name : String) (line : UInt32) : Construction NodeId := do
  atLine .varDecl line [("name", name)] [← typeNode .intArray true line]

def param (name : String) (type : TypeName) (line : UInt32) : Construction NodeId := do
  atLine .param line [("name", name)] [← typeNode type false line]

def varargsParam (name : String) (line : UInt32) : Construction NodeId := do
  atLine .param line [("name", name)] [← typeNode .intArray true line]

/-- Makes a public method; the body holds declarations followed by statements. -/
def method (name : String) (returnType : TypeName) (params body : List NodeId) (isStatic : Bool)
    (line : UInt32) : Construction NodeId := do
  let type ← typeNode returnType false line
  atLine .methodDecl line
    [("name", name), ("isStatic", boolText isStatic), ("isPublic", "true")] (type :: params ++ body)

def mainMethod (body : List NodeId) (line : UInt32) : Construction NodeId := do
  let args ← param "args" .stringArray line
  method "main" .void [args] body true line

def block (statements : List NodeId) (line : UInt32) : Construction NodeId :=
  atLine .block line [] statements

def ifElse (cond yes : NodeId) (no : Option NodeId) (line : UInt32) : Construction NodeId :=
  atLine .ifElse line [] ([cond, yes] ++ no.toList)

def whileLoop (cond body : NodeId) (line : UInt32) : Construction NodeId :=
  atLine .whileLoop line [] [cond, body]

def forLoop (init cond update body : NodeId) (line : UInt32) : Construction NodeId :=
  atLine .forLoop line [] [init, cond, update, body]

def exprStmt (expr : NodeId) (line : UInt32) : Construction NodeId :=
  atLine .exprStmt line [] [expr]

def assign (name : String) (value : NodeId) (line : UInt32) : Construction NodeId :=
  atLine .assign line [("name", name)] [value]

def arrayAssign (name : String) (index value : NodeId) (line : UInt32) : Construction NodeId :=
  atLine .arrayAssign line [("name", name)] [index, value]

def ret (value : Option NodeId) (line : UInt32) : Construction NodeId :=
  atLine .ret line [] value.toList

def binary (op : String) (lhs rhs : NodeId) (line : UInt32) : Construction NodeId :=
  atLine .binaryOp line [("op", op)] [lhs, rhs]

def unary (op : String) (operand : NodeId) (line : UInt32) : Construction NodeId :=
  atLine .unaryOp line [("op", op)] [operand]

def paren (inner : NodeId) (line : UInt32) : Construction NodeId :=
  atLine .paren line [] [inner]

def arrayAccess (base index : NodeId) (line : UInt32) : Construction NodeId :=
  atLine .arrayAccess line [] [base, index]

def arrayLength (base : NodeId) (line : UInt32) : Construction NodeId :=
  atLine .arrayLength line [] [base]

def call (receiver : NodeId) (name : String) (args : List NodeId) (line : UInt32) :
    Construction NodeId :=
  atLine .methodCall line [("name", name)] (receiver :: args)

def newIntArray (size : NodeId) (line : UInt32) : Construction NodeId :=
  atLine .newIntArray line [] [size]

def newObject (name : String) (line : UInt32) : Construction NodeId :=
  atLine .newObject line [("name", name)] []

def arrayLiteral (elements : List NodeId) (line : UInt32) : Construction NodeId :=
  atLine .arrayLiteral line [] elements

def intLiteral (value : Int) (line : UInt32) : Construction NodeId :=
  atLine .intLiteral line [("value", toString value)] []

def booleanLiteral (value : Bool) (line : UInt32) : Construction NodeId :=
  atLine .booleanLiteral line [("value", boolText value)] []

def identifier (name : String) (line : UInt32) : Construction NodeId :=
  atLine .identifier line [("name", name)] []

def thisRef (line : UInt32) : Construction NodeId := atLine .thisRef line [] []

end Draft
end ClassCompiler
