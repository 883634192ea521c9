import ClassCompiler.Proofs.Review.Findings
import ClassCompiler.Proofs.Typing.Rules
import ClassCompiler.Syntax.Draft

/-! Accepted classes are typed throughout: every expression inside a method has a type, also one
that no check looks at as such. -/

namespace ClassCompiler
set_option autoImplicit false

open Review

namespace SymbolTable
variable {table : SymbolTable} {method : Option String}

theorem exists_variableType {name : String} (h : (table.resolve method name).isResolved = true) :
    ∃ type, table.variableType method name = .ok type := by
  unfold variableType
  split
  case h_5 unresolved =>
    rw [unresolved] at h
    cases h
  all_goals exact ⟨_, rfl⟩

theorem exists_elementType {base : TypeName} (h : base.isArray = true ∨ base.isUnknown = true) :
    ∃ type, elementType base = .ok type := by
  unfold elementType
  split
  · exact ⟨_, rfl⟩
  · rename_i known
    rw [if_pos (h.resolve_right known)]
    exact ⟨_, rfl⟩

end SymbolTable

theorem Term.exists_cons_of_getElem? {children : List Term} {first : Term}
    (h : children[0]? = some first) : ∃ rest, children = first :: rest := by
  cases children with
  | nil => cases h
  | cons child rest =>
    cases h
    exact ⟨rest, rfl⟩

/-- A well-formed expression that has been reviewed, with all that is below it, has a type. -/
theorem exists_exprType {subject : Subject} {method : String} {term : Term}
    (shaped : term.WellFormed)
    (reviewed : ∀ t ∈ term :: term.descendants, Reviewed subject method t)
    (expression : term.kind.isExpression = true) :
    ∃ type, subject.table.exprType (some method) term = .ok type := by
  induction term using Term.induct with
  | step id label children ih =>
    obtain ⟨own, below⟩ := Term.forall_mem_node_iff.mp reviewed
    cases hkind : label.kind with
    | intLiteral => exact ⟨_, SymbolTable.exprType_intLiteral hkind⟩
    | booleanLiteral => exact ⟨_, SymbolTable.exprType_booleanLiteral hkind⟩
    | arrayLength => exact ⟨_, SymbolTable.exprType_arrayLength hkind⟩
    | newIntArray => exact ⟨_, SymbolTable.exprType_newIntArray hkind⟩
    | thisRef => exact ⟨_, SymbolTable.exprType_thisRef hkind⟩
    | newObject =>
      obtain ⟨name, hname⟩ := shaped.attr (congrArg Kind.attribute? hkind)
      exact ⟨_, SymbolTable.exprType_newObject hkind hname⟩
    | identifier =>
      obtain ⟨name, hname, resolved⟩ := own.named (by simp [namesVariable, Term.kind, Term.label,
        hkind])
      obtain ⟨type, htype⟩ := SymbolTable.exists_variableType resolved
      exact ⟨type, (SymbolTable.exprType_identifier hkind hname).trans htype⟩
    | paren =>
      have accepts : Kind.paren.accepts (children.map Term.kind) = true := hkind ▸ shaped.accepts
      obtain ⟨inner, rfl⟩ : ∃ inner, children = [inner] := by
        simp only [Kind.accepts, Bool.and_eq_true, List.length_map, beq_iff_eq] at accepts
        exact List.length_eq_one_iff.mp accepts.1
      have inside : inner.kind.isExpression = true :=
        Kind.isExpression_of_accepts accepts rfl _ List.mem_cons_self
      obtain ⟨type, htype⟩ := ih inner List.mem_cons_self (shaped.child List.mem_cons_self)
        (below inner List.mem_cons_self) inside
      exact ⟨type, (SymbolTable.exprType_paren hkind).trans htype⟩
    | unaryOp =>
      obtain ⟨symbol, op, hsymbol, hop⟩ := own.unary hkind
      exact ⟨_, SymbolTable.exprType_unary hkind hsymbol hop⟩
    | binaryOp =>
      obtain ⟨symbol, op, left, right, lhs, rhs, hsymbol, hop, hleft, -, hlhs, -⟩ :=
        own.binary hkind
      obtain ⟨rest, rfl⟩ := Term.exists_cons_of_getElem? hleft
      cases compounds : op.compoundBase? with
      | none => exact ⟨_, SymbolTable.exprType_binary hkind hsymbol hop compounds⟩
      | some base => exact ⟨lhs, (SymbolTable.exprType_compound hkind hsymbol hop compounds).trans
          hlhs⟩
    | arrayAccess =>
      obtain ⟨base, type, hbase, htype, indexable⟩ := own.access hkind
      obtain ⟨rest, rfl⟩ := Term.exists_cons_of_getElem? hbase
      obtain ⟨element, helement⟩ := SymbolTable.exists_elementType indexable
      rw [SymbolTable.exprType_arrayAccess hkind, htype]
      exact ⟨element, helement⟩
    | methodCall =>
      obtain ⟨name, receiver, type, hname, hreceiver, htype⟩ := own.call hkind
      obtain ⟨rest, rfl⟩ := Term.exists_cons_of_getElem? hreceiver
      rw [SymbolTable.exprType_methodCall hkind hname, htype]
      exact ⟨_, rfl⟩
    | arrayLiteral => exact ⟨_, (own.initializer hkind).2⟩
    | _ => simp [Term.kind, Term.label, hkind, Kind.isExpression] at expression

/-- In a well-formed class that is accepted every expression below a method has a type. -/
theorem exprType_of_accepted {tree : Tree} {table : SymbolTable} {reports : List Report}
    {decl method e : Term} {name : String} (shaped : tree.WellFormed)
    (accepted : check tree = .ok (table, reports)) (clean : hasErrors reports = false)
    (hclass : tree.classDecl = .ok decl) (hmethod : method ∈ decl.childrenOfKind .methodDecl)
    (hname : method.attr? "name" = some name) (he : e ∈ method.descendants)
    (expression : e.kind.isExpression = true) :
    ∃ type, table.exprType (some name) e = .ok type := by
  obtain ⟨context, hcontext, reviewed⟩ := reviewed_of_check shaped accepted clean hclass hmethod
  obtain rfl : context.name = name :=
    Option.some.inj ((methodContext_eq_ok hcontext).symm.trans hname)
  have inside : e ∈ method :: method.descendants := List.mem_cons_of_mem _ he
  have shapedMethod := (shaped.classDecl hclass).child (List.mem_filter.mp hmethod).1
  exact exists_exprType (shapedMethod.below inside)
    (fun t ht => reviewed t (Term.mem_descendants_trans inside ht)) expression

section Rows
open Draft

/-- A class that prints and returns the first item of an array that another method makes. -/
def rows : Construction NodeId := do
  let shown ← arrayAccess (← paren (← call (← thisRef 2) "row" [← identifier "n" 2] 2) 2)
    (← intLiteral 0 2) 2
  let print ← exprStmt (← call (← identifier "io" 2) "print" [shown] 2) 2
  let item ← arrayAccess (← call (← thisRef 3) "row" [← identifier "n" 3] 3) (← intLiteral 0 3) 3
  let first ← method "first" .int [← param "n" .int 1] [print, ← ret (some item) 3] false 1
  let made ← ret (some (← newIntArray (← identifier "n" 5) 5)) 5
  let row ← method "row" .intArray [← param "n" .int 4] [made] false 4
  program ["io"] (← classDecl "Rows" none [first, row] 1)

def rowsTree : Tree := (rows.run {}).2.finish (rows.run {}).1

def rowsTable : SymbolTable where
  className := "Rows"
  superName := ""
  imports := ["io"]
  fields := []
  methods := ["first", "row"]
  signatures := [("first", ⟨.int, [⟨"n", .int, false⟩], [], false⟩),
    ("row", ⟨.intArray, [⟨"n", .int, false⟩], [], false⟩)]

theorem rowsTree_accepted :
    rowsTree.WellFormed ∧ check rowsTree = .ok (rowsTable, []) := by decide +kernel

theorem declares_rowsTree : rowsTree.Declares 26 [18, 25] := Tree.declares_of_ids (by decide +kernel)

theorem exprType_of_accepted_rows :
    ∃ type, rowsTable.exprType (some "first") (rowsTree.term 3) = .ok type := by
  obtain ⟨wellFormed, accepted⟩ := rowsTree_accepted
  obtain ⟨named, expression, finite, inside⟩ : (rowsTree.term 18).attr? "name" = some "first" ∧
      (rowsTree.term 3).kind.isExpression = true ∧ rowsTree.Finite 18 ∧
      3 ∈ (rowsTree.term 18).descendants.map Term.id := by decide +kernel
  refine exprType_of_accepted wellFormed accepted rfl declares_rowsTree.found ?_ named
    (finite.mem_descendants inside) expression
  rw [declares_rowsTree.listed]
  exact List.mem_cons_self

end Rows
end ClassCompiler
