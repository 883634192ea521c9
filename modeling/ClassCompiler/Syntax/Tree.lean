import ClassCompiler.Syntax.Term

/-! Syntax trees as stores of numbered nodes. A node may be replaced in its parent without
renumbering the others, and a node that is replaced stays in the store. -/

namespace ClassCompiler
set_option autoImplicit false

/-- A stored node: its label and its links. -/
structure Node where
  label : Label
  children : List NodeId := []
  parent : Option NodeId := none
  deriving Inhabited

instance : DecidableEq Node := fun a b =>
  decidable_of_iff (a.label = b.label ∧ a.children = b.children ∧ a.parent = b.parent)
    (by cases a; cases b; simp)

/-- Numbered nodes, one of which is the root. -/
structure Tree where
  nodes : Array Node
  root : NodeId
  deriving Inhabited, DecidableEq

namespace Tree

def size (tree : Tree) : Nat := tree.nodes.size

def node (tree : Tree) (id : NodeId) : Node := tree.nodes.getD id default

def kind (tree : Tree) (id : NodeId) : Kind := (tree.node id).label.kind

def children (tree : Tree) (id : NodeId) : List NodeId := (tree.node id).children

def parent? (tree : Tree) (id : NodeId) : Option NodeId := (tree.node id).parent

def attr? (tree : Tree) (id : NodeId) (key : String) : Option String :=
  (tree.node id).label.attr? key

/-- The term at a node, to a depth. -/
def unfold (tree : Tree) : Nat → NodeId → Term
  | 0, id => .node id (tree.node id).label []
  | depth + 1, id => .node id (tree.node id).label ((tree.children id).map (tree.unfold depth))

/-- The term at a node. Where no node is below itself, no path is longer than the number
of nodes, and the depth cuts nothing off. -/
def term (tree : Tree) (id : NodeId) : Term := tree.unfold tree.size id

def rootTerm (tree : Tree) : Term := tree.term tree.root

def requireAttr (tree : Tree) (id : NodeId) (key : String) : Except Fault String :=
  match tree.attr? id key with
  | some value => .ok value
  | none => .error (.missingAttribute id (tree.kind id) key)

def child (tree : Tree) (id : NodeId) (index : Nat) : Except Fault NodeId :=
  match (tree.children id)[index]? with
  | some child => .ok child
  | none => .error (.missingChild id (tree.kind id) index)

/-- The closest node of a kind on the way up from a node, the node itself excluded. -/
def ancestorOfKind? (tree : Tree) (id : NodeId) (kind : Kind) : Option NodeId :=
  climb tree.size id
where
  /-- Follows a number of parent links at most. -/
  climb : Nat → NodeId → Option NodeId
    | 0, _ => none
    | steps + 1, id =>
      match tree.parent? id with
      | none => none
      | some parent => if tree.kind parent = kind then some parent else climb steps parent

/-- The place of a node among the children of its parent. -/
def indexInParent? (tree : Tree) (id : NodeId) : Option Nat := do
  let parent ← tree.parent? id
  (tree.children parent).findIdx? (· == id)

/-- The term of the class declaration: the root itself or the first such child of it. -/
def classDecl (tree : Tree) : Except Fault Term :=
  let root := tree.rootTerm
  if root.kind = .classDecl then .ok root
  else
    match root.firstOfKind? .classDecl with
    | some decl => .ok decl
    | none => .error (.unexpectedKind root.id .classDecl root.kind)

def modify (tree : Tree) (id : NodeId) (change : Node → Node) : Tree :=
  { tree with nodes := tree.nodes.modify id change }

def add (tree : Tree) (node : Node) : Tree × NodeId :=
  ({ tree with nodes := tree.nodes.push node }, tree.size)

/-- Makes a node the last child of another. -/
def pushChild (tree : Tree) (parent child : NodeId) : Tree :=
  (tree.modify parent fun node => { node with children := node.children ++ [child] }).modify child
    fun node => { node with parent := some parent }

/-- Puts a node into the place of another, which loses its parent. -/
def replace (tree : Tree) (old new : NodeId) : Except Fault Tree :=
  match tree.parent? old, tree.indexInParent? old with
  | some parent, some slot =>
    let tree := tree.modify parent fun node => { node with children := node.children.set slot new }
    let tree := tree.modify new fun node => { node with parent := some parent }
    .ok (tree.modify old fun node => { node with parent := none })
  | _, _ => .error (.detached old)

/-- Adds a copy of a node, made by a function, as the last child of another node. -/
def adopt (copyOf : Tree → NodeId → Option (Tree × NodeId)) (parent : NodeId) (tree : Tree)
    (child : NodeId) : Option Tree := do
  let (tree, copy) ← copyOf tree child
  return tree.pushChild parent copy

/-- Adds a copy of a node without a parent, and then copies of all that is below it, each as the
last child of its parent when everything below it is copied. There is none if the depth is not
enough. -/
def copyWithin : Nat → Tree → NodeId → Option (Tree × NodeId)
  | 0, _, _ => none
  | depth + 1, tree, id => do
    let node := tree.node id
    let (tree, copy) := tree.add { label := node.label }
    let tree ← node.children.foldlM (adopt (copyWithin depth) copy) tree
    return (tree, copy)

/-- Adds a copy of everything at and below a node. Where no node is below itself, no path is longer
than the number of nodes, and the depth is enough. -/
def copy (tree : Tree) (id : NodeId) : Tree × NodeId :=
  (tree.copyWithin tree.size id).getD (tree, id)

/-- The nodes that a stack of pending nodes leads to, after those that were taken off it before:
a node that is taken off leaves its children on the top. There are none if the stack is not empty
after a number of rounds. -/
def drain (tree : Tree) (taken : List NodeId) : Nat → List NodeId → Option (List NodeId)
  | _, [] => some taken
  | 0, _ :: _ => none
  | rounds + 1, id :: pending =>
    tree.drain (taken ++ [id]) rounds (tree.children id ++ pending)

/-- The nodes below a node, parents before children. In a tree no node is taken off twice. -/
def descendants? (tree : Tree) (id : NodeId) : Option (List NodeId) :=
  tree.drain [] tree.size (tree.children id)

end Tree
end ClassCompiler
