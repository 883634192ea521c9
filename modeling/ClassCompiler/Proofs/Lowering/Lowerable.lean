import ClassCompiler.Proofs.Typing.Agreement

/-! What has code where it stands. A review lets pass some expressions that lowering refuses: the
name of a class or a call without a result where a value is taken, a compound assignment to what is
no place, an index into what is no array. Each condition here looks at one node, and together they
are all that is left to ask of a class that is accepted. -/

namespace ClassCompiler
set_option autoImplicit false

open Review

namespace Term

/-- An expression without the parentheses around it. -/
def core : Term → Term
  | .node id label [] => .node id label []
  | .node id label (inner :: rest) =>
    if label.kind = .paren then inner.core else .node id label (inner :: rest)

def isStorable (e : Term) : Bool :=
  match e.core.kind with
  | .intLiteral | .booleanLiteral | .thisRef | .methodCall => false
  | _ => true

def storesCompound (t : Term) : Bool := !t.isCompound || t.children.head?.all isStorable

end Term

/-- What becomes of the value of a child: it is that of its parent, it is dropped, it receives a
call, it is assigned to a variable, or something is made of it. -/
inductive Use where
  | passed
  | dropped
  | called
  | assigned
  | taken

/-- What a node of a kind does with the value of its child at a place. -/
def Kind.use : Kind → Nat → Use
  | .paren, _ => .passed
  | .exprStmt, _ | .forLoop, 0 | .forLoop, 2 => .dropped
  | .methodCall, 0 => .called
  | .assign, _ => .assigned
  | _, _ => .taken

namespace SymbolTable

/-- Whether an expression is a call or an item of an array that yields nothing. -/
def yieldsNothing (table : SymbolTable) (method : String) (e : Term) : Bool :=
  (e.core.kind == .methodCall || e.core.kind == .arrayAccess) &&
    (table.exprType (some method) e).toOption.any TypeName.isVoid

/-- Whether an expression has what its use asks for: only a receiver may be the name of a class, and
nothing can be made of what yields nothing. -/
def suits (table : SymbolTable) (method : String) (child : Term) : Use → Bool
  | .passed | .dropped => true
  | .called => !table.yieldsNothing method child
  | .assigned => !table.namesImport method child.core
  | .taken => !table.yieldsNothing method child && !table.namesImport method child.core

def suitsUses (table : SymbolTable) (method : String) (t : Term) : Bool :=
  t.children.zipIdx.all fun (child, place) => table.suits method child (t.kind.use place)

def callsDeclared (table : SymbolTable) (method : String) (call : Term) : Bool :=
  (call.attr? "name").any table.hasMethod && call.children.head?.any fun receiver =>
    (table.exprType (some method) receiver).toOption.any (isOwnCall table receiver)

/-- Whether an expression is known to be an array, or is a call that may return one. The items of
an array are none. -/
def isIndexable (table : SymbolTable) (method : String) (base : Term) : Bool :=
  base.core.kind == .methodCall && !table.callsDeclared method base.core ||
    base.core.kind != .arrayAccess &&
      (table.exprType (some method) base).toOption.any TypeName.isArray

def indexesArray (table : SymbolTable) (method : String) (t : Term) : Bool :=
  t.kind != .arrayAccess || t.children.head?.all (table.isIndexable method)

def target (table : SymbolTable) (method : String) (t : Term) : Reference :=
  ((t.attr? "name").map (table.resolve (some method))).getD .unresolved

/-- Whether a term, if it is an assignment, has a variable to assign to and a value for it: a field
takes nothing that yields nothing, and an item no call from which nothing would be expected. -/
def writesVariable (table : SymbolTable) (method : String) (t : Term) : Bool :=
  match t.kind, table.target method t with
  | .assign, .field _ => t.children.head?.all fun value => !table.yieldsNothing method value
  | .assign, target => target.symbol?.isSome
  | .arrayAssign, target => target.symbol?.any fun symbol => symbol.type.isArray &&
      (symbol.type.name != "void" || t.children[1]?.all fun value => value.core.kind != .methodCall)
  | _, _ => true

def isLowerable (table : SymbolTable) (method : String) (t : Term) : Bool :=
  table.suitsUses method t && t.storesCompound && table.indexesArray method t &&
    table.writesVariable method t

def lowersMethod (table : SymbolTable) (method : Term) : Bool :=
  (method.attr? "name").all fun name => (method :: method.descendants).all (table.isLowerable name)

end SymbolTable

/-- Everything in the methods of a class has code. -/
def Tree.Lowerable (tree : Tree) (table : SymbolTable) : Prop :=
  ∀ decl, tree.classDecl = .ok decl →
    ∀ method ∈ decl.childrenOfKind .methodDecl, table.lowersMethod method = true

namespace Term
variable {id : NodeId} {label : Label} {inner : Term} {rest : List Term}

theorem core_paren (kind : label.kind = .paren) :
    core (.node id label (inner :: rest)) = inner.core := by
  rw [core, if_pos kind]

/-- Only parentheses with nothing in them are left. -/
theorem children_core {e : Term} (h : e.core.kind = .paren) : e.core.children = [] := by
  induction e using Term.induct with
  | step id label children ih =>
    cases children with
    | nil => rfl
    | cons inner rest =>
      by_cases kind : label.kind = .paren
      · rw [core_paren kind] at h ⊢
        exact ih inner List.mem_cons_self h
      · rw [core, if_neg kind] at h
        exact absurd h kind

theorem core_mem (e : Term) : e.core ∈ e :: e.descendants := by
  induction e using Term.induct with
  | step id label children ih =>
    cases children with
    | nil => exact List.mem_cons_self
    | cons inner rest =>
      by_cases kind : label.kind = .paren
      · rw [core_paren kind]
        exact List.mem_cons_of_mem _
          (mem_descendants_of_child List.mem_cons_self (ih inner List.mem_cons_self))
      · rw [core, if_neg kind]
        exact List.mem_cons_self

end Term

theorem SymbolTable.exprType_core (table : SymbolTable) (method : Option String) (e : Term) :
    table.exprType method e.core = table.exprType method e := by
  induction e using Term.induct with
  | step id label children ih =>
    cases children with
    | nil => rfl
    | cons inner rest =>
      by_cases kind : label.kind = .paren
      · rw [Term.core_paren kind, exprType_paren kind]
        exact ih inner List.mem_cons_self
      · rw [Term.core, if_neg kind]

namespace Lowering
variable {table : SymbolTable} {hint : Option CodeType}

/-- Parentheses are lowered to what is in them. -/
theorem lowerExpr_paren {id : NodeId} {label : Label} {inner : Term} {rest : List Term}
    (kind : label.kind = .paren) :
    lowerExpr table hint (.node id label (inner :: rest)) = lowerExpr table hint inner := by
  rw [lowerExpr]
  simp only [kind]

theorem lowerExpr_core (hint : Option CodeType) (e : Term) :
    lowerExpr table hint e.core = lowerExpr table hint e := by
  induction e using Term.induct with
  | step id label children ih =>
    cases children with
    | nil => rfl
    | cons inner rest =>
      by_cases kind : label.kind = .paren
      · rw [Term.core_paren kind, lowerExpr_paren kind]
        exact ih inner List.mem_cons_self
      · rw [Term.core, if_neg kind]

/-- What is expected matters to calls only. -/
theorem lowerExpr_eq_of_not_call {e : Term} (h : e.core.kind ≠ .methodCall) :
    lowerExpr table hint e = lowerExpr table none e := by
  rw [← lowerExpr_core hint, ← lowerExpr_core none]
  have empty := e.children_core
  revert h empty
  generalize e.core = core
  intro h empty
  cases core with
  | node id label children =>
    unfold lowerExpr
    cases kind : label.kind with
    | methodCall => exact absurd kind h
    | paren =>
      obtain rfl : children = [] := empty kind
      rfl
    | _ => rfl

end Lowering
end ClassCompiler
