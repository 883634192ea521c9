import ClassCompiler.Proofs.Syntax.Compound
import ClassCompiler.Typing.Basic

/-! The type of an expression, kind by kind. -/

namespace ClassCompiler
set_option autoImplicit false

def UnaryOperator.yields : UnaryOperator → TypeName
  | .not => .boolean
  | .neg => .int

def BinaryOperator.yields (op : BinaryOperator) : TypeName :=
  if op.family = .arithmetic then .int else .boolean

def Kind.literalType (kind : Kind) : TypeName := if kind = .booleanLiteral then .boolean else .int

@[simp] theorem Kind.isArray_literalType (kind : Kind) : kind.literalType.isArray = false := by
  unfold literalType
  split <;> rfl

@[simp] theorem Kind.isUnknown_literalType (kind : Kind) : kind.literalType.isUnknown = false := by
  unfold literalType
  split <;> rfl

namespace SymbolTable
variable {table : SymbolTable} {method : Option String} {id : NodeId} {label : Label}
  {children rest : List Term}

-- The equations are derived here, once for all the kinds.
attribute [local simp] exprType

theorem exprAttr_node {key value : String} (h : label.attr? key = some value) :
    exprAttr (.node id label children) key = .ok value := by
  have found : (Term.node id label children).requireAttr key = .ok value :=
    Term.requireAttr_eq_ok.mpr h
  rw [exprAttr, found]
  rfl

theorem exprType_intLiteral (kind : label.kind = .intLiteral) :
    table.exprType method (.node id label children) = .ok .int := by
  unfold exprType
  simp only [kind]

theorem exprType_booleanLiteral (kind : label.kind = .booleanLiteral) :
    table.exprType method (.node id label children) = .ok .boolean := by
  unfold exprType
  simp only [kind]

theorem exprType_literal {t : Term} (literal : t.kind.isLiteral = true) :
    table.exprType method t = .ok t.kind.literalType := by
  cases t with
  | node id label children =>
    dsimp only [Term.kind, Term.label] at literal ⊢
    cases kind : label.kind <;> simp only [kind, Kind.isLiteral, Bool.false_eq_true] at literal
    · exact exprType_intLiteral kind
    · exact exprType_booleanLiteral kind

theorem exprType_arrayLength (kind : label.kind = .arrayLength) :
    table.exprType method (.node id label children) = .ok .int := by
  unfold exprType
  simp only [kind]

theorem exprType_newIntArray (kind : label.kind = .newIntArray) :
    table.exprType method (.node id label children) = .ok .intArray := by
  unfold exprType
  simp only [kind]

theorem exprType_thisRef (kind : label.kind = .thisRef) :
    table.exprType method (.node id label children) = .ok (.ofClass table.className) := by
  unfold exprType
  simp only [kind]

theorem exprType_newObject {name : String} (kind : label.kind = .newObject)
    (attr : label.attr? "name" = some name) :
    table.exprType method (.node id label children) = .ok (.ofClass name) := by
  unfold exprType
  simp only [kind, exprAttr_node attr]
  rfl

theorem exprType_identifier {name : String} (kind : label.kind = .identifier)
    (attr : label.attr? "name" = some name) :
    table.exprType method (.node id label children) = table.variableType method name := by
  unfold exprType
  simp only [kind, exprAttr_node attr]
  rfl

theorem exprType_paren {inner : Term} (kind : label.kind = .paren) :
    table.exprType method (.node id label (inner :: rest)) = table.exprType method inner := by
  simp [kind]

theorem exprType_unary {symbol : String} {op : UnaryOperator} (kind : label.kind = .unaryOp)
    (attr : label.attr? "op" = some symbol) (means : UnaryOperator.ofSymbol? symbol = some op) :
    table.exprType method (.node id label children) = .ok op.yields := by
  unfold exprType
  simp only [kind, exprAttr_node attr]
  cases op <;> simp [bind, Except.bind, means, UnaryOperator.yields]

theorem exprType_binary {symbol : String} {op : BinaryOperator} (kind : label.kind = .binaryOp)
    (attr : label.attr? "op" = some symbol) (means : BinaryOperator.ofSymbol? symbol = some op)
    (plain : op.compoundBase? = none) :
    table.exprType method (.node id label children) = .ok op.yields := by
  have family : op.family ≠ .compoundAssign := by
    simp [BinaryOperator.family_eq_compoundAssign_iff, plain]
  unfold exprType
  simp only [kind, exprAttr_node attr]
  cases hfamily : op.family with
  | compoundAssign => exact absurd hfamily family
  | _ => simp [bind, Except.bind, means, BinaryOperator.yields, hfamily]

theorem exprType_compound {symbol : String} {op base : BinaryOperator} {target : Term}
    (kind : label.kind = .binaryOp) (attr : label.attr? "op" = some symbol)
    (means : BinaryOperator.ofSymbol? symbol = some op)
    (compounds : op.compoundBase? = some base) :
    table.exprType method (.node id label (target :: rest)) = table.exprType method target := by
  have family := (BinaryOperator.family_eq_compoundAssign_iff op).mpr (by rw [compounds]; rfl)
  rw [exprType]
  simp only [kind, exprAttr_node attr]
  simp [bind, Except.bind, means, family]

theorem exprType_arrayAccess {base : Term} (kind : label.kind = .arrayAccess) :
    table.exprType method (.node id label (base :: rest)) =
      table.exprType method base >>= elementType := by
  simp [kind]

theorem exprType_methodCall {receiver : Term} {name : String} (kind : label.kind = .methodCall)
    (attr : label.attr? "name" = some name) :
    table.exprType method (.node id label (receiver :: rest)) =
      table.exprType method receiver >>= fun type => .ok (table.callType receiver type name) := by
  rw [exprType]
  simp only [kind, exprAttr_node attr]
  rfl

end SymbolTable
end ClassCompiler
