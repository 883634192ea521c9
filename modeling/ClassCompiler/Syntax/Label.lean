import ClassCompiler.Syntax.Kind
import ClassCompiler.Text.NameMap

/-! What a syntax node carries apart from its place in a tree, and the ways in which a
tree can be malformed. -/

namespace ClassCompiler
set_option autoImplicit false

/-- A place in the source text. -/
structure Location where
  line : UInt32 := 0
  column : UInt32 := 0
  deriving DecidableEq, Repr, Inhabited

def Location.text (location : Location) : String :=
  toString location.line.toNat ++ ":" ++ toString location.column.toNat

/-- The number of a node in its tree. -/
abbrev NodeId := Nat

def nodeText (id : NodeId) : String := "#" ++ toString id

/-- The kind, the attributes and the location of a node. -/
structure Label where
  kind : Kind
  attrs : NameMap String := {}
  location : Location := {}
  deriving Inhabited

namespace Label

instance : DecidableEq Label := fun a b =>
  decidable_of_iff (a.kind = b.kind ∧ a.attrs = b.attrs ∧ a.location = b.location)
    (by cases a; cases b; simp)

def attr? (label : Label) (key : String) : Option String := label.attrs.get? key

/-- Whether an attribute holds the text of truth. -/
def flag (label : Label) (key : String) : Bool := label.attr? key == some "true"

end Label

/-- What can be wrong with the shape of a tree. -/
inductive Fault where
  | missingChild (node : NodeId) (kind : Kind) (index : Nat)
  | missingAttribute (node : NodeId) (kind : Kind) (attr : String)
  | unexpectedKind (node : NodeId) (expected found : Kind)
  | unexpectedNode (node : NodeId) (kind : Kind)
  | detached (node : NodeId)
  | unknownKind (name : String)
  | invalidLiteral (text : String)
  deriving DecidableEq, Repr

def Fault.message : Fault → String
  | .missingChild node kind index =>
    "node " ++ nodeText node ++ " (" ++ kind.name ++ ") has no child at index " ++ toString index
  | .missingAttribute node kind attr =>
    "node " ++ nodeText node ++ " (" ++ kind.name ++ ") has no attribute '" ++ attr ++ "'"
  | .unexpectedKind node expected found =>
    "node " ++ nodeText node ++ ": expected " ++ expected.name ++ ", found " ++ found.name
  | .unexpectedNode node kind =>
    "node " ++ nodeText node ++ " (" ++ kind.name ++ ") is not allowed here"
  | .detached node => "node " ++ nodeText node ++ " has no parent"
  | .unknownKind name => "unknown node kind '" ++ name ++ "'"
  | .invalidLiteral text => "invalid integer literal '" ++ text ++ "'"

end ClassCompiler
