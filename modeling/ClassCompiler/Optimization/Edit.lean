import ClassCompiler.Symbols.Basic
import ClassCompiler.Syntax.Tree

/-! Changes to a tree that put literals into the place of expressions. When a change ends
with a fault, the tree stays as it was left then. -/

namespace ClassCompiler
set_option autoImplicit false

/-- A computation that changes a tree and may end with a fault. -/
abbrev Edit := ExceptT Fault (StateM Tree)

/-- A way to simplify a tree; it gives the number of expressions that it replaced. -/
structure Simplification where
  name : String
  run : SymbolTable → Edit Nat

/-- A literal with its kind: an integer or a truth value. -/
structure Known where
  kind : Kind
  value : String
  deriving DecidableEq, Repr

namespace Tree

/-- Adds a literal at the location of a node, and puts it into the place of the node if
this has one. -/
def putLiteral (tree : Tree) (old : NodeId) (literal : Known) : Except Fault NodeId × Tree :=
  let label : Label :=
    { kind := literal.kind, attrs := NameMap.ofList [("value", literal.value)],
      location := (tree.node old).label.location }
  let (grown, new) := tree.add { label }
  match grown.replace old new with
  | .ok replaced => (.ok new, replaced)
  | .error fault => (.error fault, grown)

end Tree

namespace Edit

/-- Puts a literal into the place of a node. -/
def putLiteral (old : NodeId) (literal : Known) : Edit NodeId :=
  ExceptT.mk (modifyGet fun tree => tree.putLiteral old literal)

end Edit
end ClassCompiler
