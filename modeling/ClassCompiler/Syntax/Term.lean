import ClassCompiler.Syntax.Label

/-! Syntax terms: a node together with everything below it, as a finite tree. All that
only looks at a program is defined on terms, by recursion on them. -/

namespace ClassCompiler
set_option autoImplicit false

/-- A node with its number, its label and the terms below it. -/
inductive Term where
  | node (id : NodeId) (label : Label) (children : List Term)
  deriving Inhabited

namespace Term

def id : Term → NodeId
  | node id _ _ => id

def label : Term → Label
  | node _ label _ => label

def children : Term → List Term
  | node _ _ children => children

def kind (term : Term) : Kind := term.label.kind

def location (term : Term) : Location := term.label.location

def attr? (term : Term) (key : String) : Option String := term.label.attr? key

def flag (term : Term) (key : String) : Bool := term.label.flag key

def lacksAttr (term : Term) (key : String) : Fault := .missingAttribute term.id term.kind key

def lacksChild (term : Term) (index : Nat) : Fault := .missingChild term.id term.kind index

def requireAttr (term : Term) (key : String) : Except Fault String :=
  match term.attr? key with
  | some value => .ok value
  | none => .error (term.lacksAttr key)

def child (term : Term) (index : Nat) : Except Fault Term :=
  match term.children[index]? with
  | some child => .ok child
  | none => .error (term.lacksChild index)

def childrenOfKind (term : Term) (kind : Kind) : List Term :=
  term.children.filter fun child => child.kind = kind

def firstOfKind? (term : Term) (kind : Kind) : Option Term :=
  (term.childrenOfKind kind).head?

mutual

def size : Term → Nat
  | node _ _ children => sizeAll children + 1

def sizeAll : List Term → Nat
  | [] => 0
  | term :: terms => term.size + sizeAll terms

end

theorem sizeAll_append (a b : List Term) : sizeAll (a ++ b) = sizeAll a + sizeAll b := by
  induction a with
  | nil => simp [sizeAll]
  | cons term terms ih => simp [sizeAll, ih, Nat.add_assoc]

/-- The terms that a list of pending terms holds, taken off the front: each stands before
those below it, and these before the terms after it. -/
def unroll : List Term → List Term
  | [] => []
  | node id label children :: pending => node id label children :: unroll (children ++ pending)
termination_by pending => sizeAll pending
decreasing_by simp [sizeAll, size, sizeAll_append]

/-- The terms strictly below a term: parents before children, and siblings in order. -/
def descendants (term : Term) : List Term := unroll term.children

def descendantsOfKind (term : Term) (kind : Kind) : List Term :=
  term.descendants.filter fun below => below.kind = kind

end Term
end ClassCompiler
