import ClassCompiler.Syntax.Tree

/-! Visiting a term and everything below it, parents before children, each visit with the
method that encloses it. -/

namespace ClassCompiler
set_option autoImplicit false

/-- The method that a node belongs to. -/
structure MethodContext where
  name : String
  node : NodeId
  isStatic : Bool
  deriving DecidableEq, Repr

/-- The name of the method where a program starts; it is static with or without a flag. -/
def entryMethod : String := "main"

def MethodContext.of (decl : Term) : Except Fault MethodContext := do
  let name ← decl.requireAttr "name"
  return { name, node := decl.id, isStatic := decl.flag "isStatic" || name == entryMethod }

/-- The enclosing method, or none at the level of the class. -/
structure Scope where
  method : Option MethodContext := none
  deriving DecidableEq, Repr

namespace Scope

def methodName? (scope : Scope) : Option String := scope.method.map (·.name)

def isStatic (scope : Scope) : Bool := (scope.method.map (·.isStatic)).getD false

/-- The enclosing method if it is static. -/
def staticMethod? (scope : Scope) : Option MethodContext := scope.method.filter (·.isStatic)

end Scope

/-- A term met on a walk, and the scope in which it stands. -/
structure Visit where
  term : Term
  scope : Scope

/-- The visits of a walk up to its end or to the fault that ended it. -/
structure Walk where
  visits : List Visit
  fault : Option Fault := none

namespace Walk

def andThen (first second : Walk) : Walk :=
  match first.fault with
  | some _ => first
  | none => ⟨first.visits ++ second.visits, second.fault⟩

end Walk

namespace Term

/-- The scope in which a term and those below it stand: a method declaration opens its
own. -/
def innerScope (scope : Scope) (term : Term) : Except Fault Scope :=
  if term.kind = .methodDecl then (MethodContext.of term).map fun method => ⟨some method⟩
  else .ok scope

mutual

/-- The walk through a term. A method without a name ends it. -/
def walk (scope : Scope) : Term → Walk
  | .node id label children =>
    match innerScope scope (.node id label children) with
    | .error fault => ⟨[], some fault⟩
    | .ok inner =>
      (Walk.mk [⟨.node id label children, inner⟩] none).andThen (walkAll inner children)

/-- The walk through several terms. -/
def walkAll (scope : Scope) : List Term → Walk
  | [] => ⟨[], none⟩
  | term :: terms => (walk scope term).andThen (walkAll scope terms)

end

end Term
end ClassCompiler
