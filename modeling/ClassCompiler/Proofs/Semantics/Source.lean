import ClassCompiler.Lowering.Class
import ClassCompiler.Proofs.Runs
import ClassCompiler.Proofs.Semantics.Memory

/-! The meaning of methods. Expressions are evaluated strictly from left to right, a
compound assignment fixes its place and reads it before it evaluates its operand, and
integers are words of 32 bits. A loop is given a number of rounds; a run that ends does so
with every number of rounds that is great enough. -/

namespace ClassCompiler
set_option autoImplicit false

/-- What the run of a method depends on: the class, the name of the method, and who answers
its calls. -/
structure Setting where
  table : SymbolTable
  method : String
  oracle : Oracle

def Setting.resolve (setting : Setting) (name : String) : Reference :=
  setting.table.resolve (some setting.method) name

/-- The state of a run: the object at work, unless the method is static, the variables that
have a value, and the world. -/
structure Store where
  self : Option Datum
  vars : String → Option Datum
  world : World

abbrev Eval := ExceptT Trap (StateM Store)

namespace Eval

def require {α : Type} (value : Except Trap α) : Eval α :=
  match value with
  | .ok value => pure value
  | .error trap => throw trap

def self : Eval Datum := do
  match (← get).self with
  | some object => return object
  | none => throw (.unset "this")

def readVar (name : String) : Eval Datum := do
  match (← get).vars name with
  | some value => return value
  | none => throw (.unset name)

def writeVar (name : String) (value : Datum) : Eval Unit :=
  modify fun store =>
    { store with vars := fun other => if other = name then some value else store.vars other }

def readField (name : String) : Eval Datum := do
  let _ ← self
  return (← get).world.memory.fields name

def writeField (name : String) (value : Datum) : Eval Unit := do
  let _ ← self
  modify fun store => { store with world := store.world.putField name value }

def readItem (array index : Datum) : Eval Datum := do
  require ((← get).world.memory.item array index)

def writeItem (array index value : Datum) : Eval Unit := do
  let world ← require ((← get).world.putItem array index value)
  modify fun store => { store with world }

def allocate (cell : Cell) : Eval Datum :=
  modifyGet fun store =>
    let (memory, address) := store.world.memory.allocate cell
    (address, { store with world := { store.world with memory } })

def invoke (oracle : Oracle) (invoked : Invoked) : Eval Datum :=
  modifyGet fun store =>
    let (world, result) := store.world.invoke oracle invoked
    (result, { store with world })

end Eval

/-- What can be assigned to: a variable, a field, or an item of an array. -/
inductive Place where
  | slot (name : String)
  | field (name : String)
  | item (array index : Datum)

namespace Place

def read : Place → Eval Datum
  | slot name => Eval.readVar name
  | field name => Eval.readField name
  | item array index => Eval.readItem array index

def write (value : Datum) : Place → Eval Unit
  | slot name => Eval.writeVar name value
  | field name => Eval.writeField name value
  | item array index => Eval.writeItem array index value

end Place

namespace Setting

def placeOf (setting : Setting) (name : String) : Eval Place :=
  match setting.resolve name with
  | .localVar _ | .parameter .. => return .slot name
  | .field _ => return .field name
  | .imported _ | .unresolved => throw .invalid

/-- The imported class that an expression names, in parentheses or without. -/
def classNamed? (setting : Setting) : Term → Option String
  | .node _ label children =>
    match label.kind, children with
    | .identifier, _ =>
      match (label.attr? "name").map setting.resolve with
      | some (.imported simple) => some simple
      | _ => none
    | .paren, inner :: _ => setting.classNamed? inner
    | _, _ => none

/-- The type that is declared for an expression: that of a variable or of an item of it, that of the
object at work or of a new one, and what a method of the class returns. Nothing is declared for
literals and operators, for array initializers, and for methods of other classes. -/
def declaredType? (setting : Setting) : Term → Option CodeType
  | .node _ label children =>
    match label.kind, children with
    | .thisRef, _ => some (.object setting.table.className)
    | .newObject, _ => (label.attr? "name").map .object
    | .identifier, _ =>
      match (label.attr? "name").map setting.resolve with
      | some (.localVar symbol) | some (.parameter _ symbol) | some (.field symbol) =>
        some (.ofTypeName symbol.type)
      | _ => none
    | .paren, inner :: _ => setting.declaredType? inner
    | .arrayAccess, base :: _ =>
      match setting.declaredType? base with
      | some (.array item) => some item
      | _ => none
    | .methodCall, receiver :: _ =>
      if setting.declaredType? receiver = some (.object setting.table.className) then
        ((label.attr? "name").bind setting.table.returnType?).map .ofTypeName
      else none
    | _, _ => none

end Setting

def Label.required (label : Label) (key : String) : Eval String :=
  match label.attr? key with
  | some value => pure value
  | none => throw .invalid

theorem Label.required_eq_pure {label : Label} {key value : String}
    (h : label.attr? key = some value) : label.required key = pure value := by
  simp [Label.required, h]

theorem Label.required_eq_throw {label : Label} {key : String} (h : label.attr? key = none) :
    label.required key = throw .invalid := by
  simp [Label.required, h]

def packItems (items : List Datum) : Eval Datum :=
  if items.length ≤ Datum.maxItems then Eval.allocate (.array items) else throw .invalid

mutual

def evalExpr (setting : Setting) : Term → Eval Datum
  | .node _ label children =>
    match label.kind, children with
    | .intLiteral, _ => do Eval.require (Datum.ofNumeral (← label.required "value"))
    | .booleanLiteral, _ => return .bool (label.flag "value")
    | .thisRef, _ => Eval.self
    | .paren, inner :: _ => evalExpr setting inner
    | .identifier, _ => do (← setting.placeOf (← label.required "name")).read
    | .binaryOp, left :: right :: _ => do
      match BinaryOperator.ofSymbol? (← label.required "op") with
      | none => throw .invalid
      | some op =>
        match op.compoundBase? with
        | some base =>
          let place ← evalPlace setting left
          let current ← place.read
          let operand ← evalExpr setting right
          let result ← Eval.require (base.apply current operand)
          place.write result
          return result
        | none =>
          let lhs ← evalExpr setting left
          let rhs ← evalExpr setting right
          Eval.require (op.apply lhs rhs)
    | .unaryOp, inner :: _ => do
      match UnaryOperator.ofSymbol? (← label.required "op") with
      | none => throw .invalid
      | some op => Eval.require (op.apply (← evalExpr setting inner))
    | .arrayAccess, base :: index :: _ => do
      let array ← evalExpr setting base
      let index ← evalExpr setting index
      Eval.readItem array index
    | .arrayLength, base :: _ => do
      let array ← evalExpr setting base
      Eval.require ((← get).world.memory.arrayLength array)
    | .methodCall, receiver :: args => do
      let method ← label.required "name"
      let receiver ← match setting.classNamed? receiver with
        | some name => pure (Receiver.type name)
        | none => do
          Eval.require (Receiver.ofValue (setting.declaredType? receiver)
            (← evalExpr setting receiver))
      let args ← evalAll setting args
      -- Trailing arguments may have to go into an array, which holds so many items.
      if args.length ≤ Datum.maxItems then Eval.invoke setting.oracle ⟨receiver, method, args⟩
      else throw .invalid
    | .newObject, _ => do
      let object ← Eval.allocate (.object (← label.required "name"))
      let _ ← Eval.invoke setting.oracle (.construct object)
      return object
    | .newIntArray, size :: _ => do
      let size ← evalExpr setting size
      let (memory, array) ← Eval.require ((← get).world.memory.newArray size (.int 0))
      modify fun store => { store with world := { store.world with memory } }
      return array
    | .arrayLiteral, elements => do packItems (← evalAll setting elements)
    | _, _ => throw .invalid

/-- The place that an expression denotes; what denotes none cannot be assigned to. -/
def evalPlace (setting : Setting) : Term → Eval Place
  | .node _ label children =>
    match label.kind, children with
    | .identifier, _ => do setting.placeOf (← label.required "name")
    | .paren, inner :: _ => evalPlace setting inner
    | .arrayAccess, base :: index :: _ => do
      let array ← evalExpr setting base
      let index ← evalExpr setting index
      return .item array index
    | _, _ => throw .invalid

def evalAll (setting : Setting) : List Term → Eval (List Datum)
  | [] => return []
  | term :: terms => do
    let value ← evalExpr setting term
    let values ← evalAll setting terms
    return value :: values

end

/-- How a statement ends: the next one follows, or the method returns. -/
inductive Completion where
  | normal
  | returned (value : Option Datum)
  deriving DecidableEq, Repr

namespace Completion

/-- One part after another, unless the first one returns. -/
def andThen (first second : Eval Completion) : Eval Completion := do
  match ← first with
  | .normal => second
  | .returned value => return .returned value

def repeatWhile (condition : Eval Bool) (body : Eval Completion) : Nat → Eval Completion
  | 0 => throw .exhausted
  | rounds + 1 => do
    if ← condition then andThen body (repeatWhile condition body rounds) else return .normal

end Completion

open Completion

/-- Evaluates an expression whose value is not used. The name of a class has no value, and
nothing happens. -/
def evalEffect (setting : Setting) (term : Term) : Eval Completion :=
  match setting.classNamed? term with
  | some _ => return .normal
  | none => do
    let _ ← evalExpr setting term
    return .normal

def evalCondition (setting : Setting) (term : Term) : Eval Bool := do
  match ← evalExpr setting term with
  | .bool value => return value
  | _ => throw .invalid

mutual

/-- Runs a statement, or an expression in its place; what is neither does nothing. -/
def exec (setting : Setting) (rounds : Nat) : Term → Eval Completion
  | .node id label children =>
    if label.kind.isExpression then evalEffect setting (.node id label children)
    else
      match label.kind, children with
      | .block, statements => execAll setting rounds statements
      | .exprStmt, inner :: _ => evalEffect setting inner
      | .assign, value :: _ => do
        let place ← setting.placeOf (← label.required "name")
        let value ← evalExpr setting value
        place.write value
        return .normal
      | .arrayAssign, index :: value :: _ => do
        let array ← (← setting.placeOf (← label.required "name")).read
        let index ← evalExpr setting index
        let value ← evalExpr setting value
        Eval.writeItem array index value
        return .normal
      | .ret, [] => return .returned none
      | .ret, value :: _ => do return .returned (some (← evalExpr setting value))
      | .ifElse, condition :: yes :: others => do
        if ← evalCondition setting condition then exec setting rounds yes
        else match others with
          | [] => return .normal
          | no :: _ => exec setting rounds no
      | .whileLoop, condition :: body :: _ =>
        repeatWhile (evalCondition setting condition) (exec setting rounds body) rounds
      | .forLoop, init :: condition :: update :: body :: _ =>
        andThen (exec setting rounds init)
          (repeatWhile (evalCondition setting condition)
            (andThen (exec setting rounds body) (exec setting rounds update)) rounds)
      | .exprStmt, _ | .assign, _ | .arrayAssign, _ | .ifElse, _ | .whileLoop, _
      | .forLoop, _ => throw .invalid
      | _, _ => return .normal

def execAll (setting : Setting) (rounds : Nat) : List Term → Eval Completion
  | [] => return .normal
  | term :: terms => andThen (exec setting rounds term) (execAll setting rounds terms)

end

/-- Runs the body of a method and gives what it returns. A body that comes to its end
returns the default of the declared type. -/
def runMethod (setting : Setting) (rounds : Nat) (decl : Term) : Eval (Option Datum) := do
  match ← execAll setting rounds (Lowering.bodyOf decl) with
  | .returned value => return value
  | .normal =>
    match TypeName.ofDecl decl with
    | .ok (type, _) => return (CodeType.ofTypeName type).fallback?
    | .error _ => throw .invalid

/-! How the single operations run when they succeed. -/

section Operations
variable {s s' : Store}

@[simp] theorem Eval.runs_require {α : Type} {value : Except Trap α} {a : α} :
    Runs (Eval.require value) s a s' ↔ value = .ok a ∧ s = s' := by
  cases value <;> simp [Eval.require]

@[simp] theorem Eval.runs_self {d : Datum} :
    Runs Eval.self s d s' ↔ s.self = some d ∧ s = s' := by
  cases h : s.self <;> simp [Eval.self, h, and_assoc]

@[simp] theorem Eval.runs_readVar {name : String} {d : Datum} :
    Runs (Eval.readVar name) s d s' ↔ s.vars name = some d ∧ s = s' := by
  cases h : s.vars name <;> simp [Eval.readVar, h, and_assoc]

@[simp] theorem Eval.runs_writeVar {name : String} {d : Datum} {u : Unit} :
    Runs (Eval.writeVar name d) s u s' ↔
      { s with vars := fun other => if other = name then some d else s.vars other } = s' := by
  simp [Eval.writeVar]

@[simp] theorem Eval.runs_readField {name : String} {d : Datum} :
    Runs (Eval.readField name) s d s' ↔
      (∃ object, s.self = some object) ∧ s.world.memory.fields name = d ∧ s = s' := by
  simp [Eval.readField, and_assoc, and_comm]

@[simp] theorem Eval.runs_writeField {name : String} {d : Datum} {u : Unit} :
    Runs (Eval.writeField name d) s u s' ↔
      (∃ object, s.self = some object) ∧ { s with world := s.world.putField name d } = s' := by
  simp [Eval.writeField, and_assoc]

@[simp] theorem Eval.runs_readItem {array index d : Datum} :
    Runs (Eval.readItem array index) s d s' ↔
      s.world.memory.item array index = .ok d ∧ s = s' := by
  simp [Eval.readItem, and_assoc, and_comm]

@[simp] theorem Eval.runs_writeItem {array index d : Datum} {u : Unit} :
    Runs (Eval.writeItem array index d) s u s' ↔
      ∃ world, s.world.putItem array index d = .ok world ∧ { s with world } = s' := by
  simp [Eval.writeItem, and_assoc]

@[simp] theorem Eval.runs_allocate {cell : Cell} {d : Datum} :
    Runs (Eval.allocate cell) s d s' ↔ (s.world.memory.allocate cell).2 = d ∧
      { s with world := { s.world with memory := (s.world.memory.allocate cell).1 } } = s' := by
  simp [Eval.allocate]

@[simp] theorem Eval.runs_invoke {oracle : Oracle} {invoked : Invoked} {d : Datum} :
    Runs (Eval.invoke oracle invoked) s d s' ↔ (s.world.invoke oracle invoked).2 = d ∧
      { s with world := (s.world.invoke oracle invoked).1 } = s' := by
  simp [Eval.invoke]

@[simp] theorem Label.runs_required {label : Label} {key value : String} :
    Runs (label.required key) s value s' ↔ label.attr? key = some value ∧ s = s' := by
  unfold Label.required
  cases label.attr? key <;> simp

end Operations
end ClassCompiler
