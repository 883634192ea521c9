import ClassCompiler.Optimization.Edit
import ClassCompiler.Syntax.Operator
import ClassCompiler.Syntax.Walk

/-! Constant propagation: a local that was assigned a literal is replaced by it where it
is read. What is known after a branch is what both arms agree on, and a loop forgets all
that is written anywhere in it. -/

namespace ClassCompiler.Propagation
set_option autoImplicit false

/-- The tree, the locals whose literals are known, and the number of replaced reads. -/
structure State where
  tree : Tree
  known : NameMap Known := {}
  replaced : Nat := 0

abbrev Step := ExceptT Fault (StateM State)

/-- What has to hold of a well-formed tree. -/
def require {α : Type} (value : Except Fault α) : Step α :=
  match value with
  | .ok value => pure value
  | .error fault => throw fault

def currentTree : Step Tree := do return (← get).tree

def currentlyKnown : Step (NameMap Known) := do return (← get).known

def setKnown (known : NameMap Known) : Step Unit := modify fun state => { state with known }

def forget (name : String) : Step Unit :=
  modify fun state => { state with known := state.known.erase name }

def replaceRead (id : NodeId) (literal : Known) : Step NodeId :=
  ExceptT.mk (modifyGet fun state =>
    let (result, tree) := state.tree.putLiteral id literal
    (result, { state with tree, replaced := state.replaced + 1 }))

/-- Whether an operator symbol is that of a compound assignment. -/
def isCompoundSymbol (symbol : Option String) : Bool :=
  match symbol.bind BinaryOperator.ofSymbol? with
  | some op => op.family = .compoundAssign
  | none => false

/-- The name that a term writes, if it is an assignment of any sort. -/
def writtenName? (term : Term) : Option String :=
  match term.kind with
  | .assign | .arrayAssign => term.attr? "name"
  | .binaryOp =>
    if isCompoundSymbol (term.attr? "op") then term.children.head?.bind (·.attr? "name") else none
  | _ => none

/-- Forgets all that is written below a node. -/
def forgetWritten (id : NodeId) : Step Unit := do
  ((← currentTree).term id).descendants.forM fun term =>
    match writtenName? term with
    | some name => forget name
    | none => pure ()

/-- Whether a name is a local of a method. -/
def isLocal (table : SymbolTable) (method name : String) : Bool :=
  (table.resolve (some method) name).isLocal

/-- Propagates into an expression, to a depth, and gives the node that stands in its place
then. A compound assignment reads its value before it writes its target. -/
def expression (table : SymbolTable) (method : String) : Nat → NodeId → Step NodeId
  | 0, id => pure id
  | depth + 1, id => do
    let tree ← currentTree
    match tree.kind id with
    | .identifier =>
      let name ← require (tree.requireAttr id "name")
      if isLocal table method name then
        match (← currentlyKnown).get? name with
        | some literal => replaceRead id literal
        | none => return id
      else return id
    | kind =>
      if kind = .binaryOp && isCompoundSymbol (tree.attr? id "op") then
        let target ← require (tree.child id 0)
        let value ← require (tree.child id 1)
        let _ ← expression table method depth value
        let tree ← currentTree
        if tree.kind target = .identifier then
          forget (← require (tree.requireAttr target "name"))
        else
          let _ ← expression table method depth target
        return id
      else
        for child in tree.children id do
          let _ ← expression table method depth child
        return id

/-- Notes what an assignment makes known about a local, given the node of its value. -/
def noteAssigned (table : SymbolTable) (method : String) (id value : NodeId) : Step Unit := do
  let tree ← currentTree
  let target ← require (tree.requireAttr id "name")
  if isLocal table method target then
    let kind := tree.kind value
    if kind.isLiteral then
      let text ← require (tree.requireAttr value "value")
      setKnown ((← currentlyKnown).insert target ⟨kind, text⟩)
    else forget target

/-- What two arms agree on. -/
def agreement (a b : NameMap Known) : NameMap Known :=
  a.filter fun name literal => b.get? name == some literal

/-- Propagates into a statement, to a depth. -/
def statement (table : SymbolTable) (method : String) : Nat → NodeId → Step Unit
  | 0, _ => pure ()
  | depth + 1, id => do
    let tree ← currentTree
    match tree.kind id with
    | .block => (tree.children id).forM (statement table method depth)
    | .exprStmt | .ret =>
      if let some value := (tree.children id).head? then
        let _ ← expression table method tree.size value
    | .arrayAssign =>
      for child in tree.children id do
        let _ ← expression table method tree.size child
    | .assign =>
      let value ← expression table method tree.size (← require (tree.child id 0))
      noteAssigned table method id value
    | .ifElse =>
      let condition ← require (tree.child id 0)
      let yes ← require (tree.child id 1)
      let _ ← expression table method tree.size condition
      let before ← currentlyKnown
      statement table method depth yes
      let afterYes ← currentlyKnown
      setKnown before
      if let some no := ((← currentTree).children id)[2]? then
        statement table method depth no
      setKnown (agreement afterYes (← currentlyKnown))
    | .whileLoop =>
      let condition ← require (tree.child id 0)
      let body ← require (tree.child id 1)
      forgetWritten id
      let _ ← expression table method tree.size condition
      let before ← currentlyKnown
      statement table method depth body
      setKnown before
    | .forLoop =>
      let init ← require (tree.child id 0)
      let condition ← require (tree.child id 1)
      let update ← require (tree.child id 2)
      let body ← require (tree.child id 3)
      statement table method depth init
      forgetWritten id
      let _ ← expression table method tree.size condition
      let before ← currentlyKnown
      statement table method depth body
      statement table method depth update
      setKnown before
    | _ => pure ()

def methodBody (table : SymbolTable) (decl : NodeId) : Step Unit := do
  let tree ← currentTree
  let context ← require (MethodContext.of (tree.term decl))
  setKnown {}
  for child in tree.children decl do
    let kind := tree.kind child
    if kind ≠ .typeName && kind ≠ .param then
      statement table context.name tree.size child

def propagate (table : SymbolTable) : Edit Nat :=
  ExceptT.mk (modifyGet fun tree =>
    let (result, state) := (steps tree).run.run { tree }
    (result, state.tree))
where
  /-- The methods in order, and the number of replaced reads at the end. -/
  steps (tree : Tree) : Step Nat := do
    let decl ← require tree.classDecl
    for method in decl.childrenOfKind .methodDecl do
      methodBody table method.id
    return (← get).replaced

end ClassCompiler.Propagation

namespace ClassCompiler

def constantPropagation : Simplification where
  name := "constant-propagation"
  run table := Propagation.propagate table

end ClassCompiler
