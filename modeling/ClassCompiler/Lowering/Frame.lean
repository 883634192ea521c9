import ClassCompiler.Code.Printer
import ClassCompiler.Lowering.Value
import ClassCompiler.Syntax.Label

/-! The bookkeeping of one method under lowering: its variables, its temporaries and its
labels. It goes on counting when an expression is refused. -/

namespace ClassCompiler
set_option autoImplicit false

/-- Why an expression or a statement has no code. -/
inductive Refusal where
  | voidAsValue
  | unresolvedIdentifier (name : String)
  | unknownOperator (symbol : String)
  | notIndexable (base : Element)
  | classAsValue (name : String)
  | notAssignable (value : Value)
  | noTarget (name : String) (line : UInt32)
  | notAnArray (name : String)
  deriving DecidableEq, Repr

def Refusal.message : Refusal → String
  | .voidAsValue => "void call used as a value"
  | .unresolvedIdentifier name => "unresolved identifier '" ++ name ++ "'"
  | .unknownOperator symbol => "unknown operator '" ++ symbol ++ "'"
  | .notIndexable base => "cannot index '" ++ base.text ++ "'"
  | .classAsValue name => "class '" ++ name ++ "' used as a value"
  | .notAssignable value => "cannot assign to " ++ value.structureText
  | .noTarget name line => "cannot assign to '" ++ name ++ "' at line " ++ toString line.toNat
  | .notAnArray name => "'" ++ name ++ "' is not an array"

/-- Why a method has no code: its tree is malformed, or something in it is refused. -/
inductive LoweringError where
  | malformed (fault : Fault)
  | refused (method : String) (refusal : Refusal)
  deriving DecidableEq, Repr

/-- The state of a method under lowering. -/
structure Frame where
  method : String
  className : String
  temporaries : Nat := 0
  labels : Nat := 0
  vars : NameMap Descriptor := {}
  nextRegister : Nat := 0

/-- A step of lowering inside a method. -/
abbrev Lowering := ExceptT LoweringError (StateM Frame)

namespace Frame

def self (frame : Frame) : Element := .self (.object frame.className)

/-- Adds a variable unless its name has one. Locals and parameters take the next
register. -/
def declare (frame : Frame) (name : String) (scope : VarScope) (type : CodeType) : Frame :=
  if frame.vars.contains name then frame
  else
    match scope with
    | .field => { frame with vars := frame.vars.insert name ⟨scope, -1, type⟩ }
    | .localVar | .parameter =>
      { frame with
        vars := frame.vars.insert name ⟨scope, frame.nextRegister, type⟩
        nextRegister := frame.nextRegister + 1 }

def temporaryName (number : Nat) : String := "t" ++ toString number

/-- The first number, from a given one on, whose temporary is no variable yet; a number of
steps are tried at most. -/
def freeNumber (frame : Frame) : Nat → Nat → Nat
  | 0, number => number
  | steps + 1, number =>
    if frame.vars.contains (temporaryName number) then frame.freeNumber steps (number + 1)
    else number

/-- Adds a temporary. Among one more names than there are variables one is free. -/
def freshName (frame : Frame) (type : CodeType) : String × Frame :=
  let number := frame.freeNumber (frame.vars.size + 1) frame.temporaries
  let name := temporaryName number
  (name, { frame with temporaries := number + 1 }.declare name .localVar type)

end Frame

namespace Lowering

/-- What has to hold of a well-formed tree. -/
def require {α : Type} (value : Except Fault α) : Lowering α :=
  match value with
  | .ok value => pure value
  | .error fault => throw (.malformed fault)

def refuse {α : Type} (refusal : Refusal) : Lowering α := do
  throw (.refused (← get).method refusal)

def declare (name : String) (scope : VarScope) (type : CodeType) : Lowering Unit :=
  modify fun frame => frame.declare name scope type

/-- Adds a field that the method reads or writes. -/
def noteField (name : String) (type : CodeType) : Lowering Unit := declare name .field type

/-- Adds a temporary and gives its name. -/
def freshName (type : CodeType) : Lowering String := modifyGet fun frame => frame.freshName type

def freshTemporary (type : CodeType) : Lowering Element := do
  return .operand (← freshName type) type

/-- The number for the next labels. -/
def nextLabel : Lowering Nat :=
  modifyGet fun frame => (frame.labels, { frame with labels := frame.labels + 1 })

def self : Lowering Element := do return (← get).self

/-- The right-hand side that computes a value. -/
def rhsOf (value : Value) : Lowering Rhs := do
  match value with
  | .element element => return .single element
  | .getField field type => return .getField (← self) field type
  | .call call => return .call call
  | .classRef name => refuse (.classAsValue name)

/-- The type of a value; the name of a class has none. -/
def typeOf (value : Value) : Lowering CodeType := do
  match value with
  | .element element => return element.type
  | .getField _ type => return type
  | .call call => return call.returnType
  | .classRef name => refuse (.classAsValue name)

/-- The instruction that stores an element where a value was read from. -/
def store (place : Value) (element : Element) : Lowering Instruction := do
  match place with
  | .element (.operand name type) => return .assign (.operand name type) (.single element)
  | .element (.arrayOperand name index type) =>
    return .assign (.arrayOperand name index type) (.single element)
  | .getField field _ => return .putField (← self) field element
  | place => refuse (.notAssignable place)

/-- A value as a simple element, with the code that puts it into a temporary if it is not
one already. -/
def materialize (value : Value) : Lowering (Element × List Instruction) := do
  match value with
  | .element (.arrayOperand name index type) =>
    inTemporary (.element (.arrayOperand name index type))
  | .element element => return (element, [])
  | value => inTemporary value
where
  /-- Puts a value into a temporary; what has no value cannot be put there. -/
  inTemporary (value : Value) : Lowering (Element × List Instruction) := do
    let rhs ← rhsOf value
    let type ← typeOf value
    if type.isVoid then
      refuse .voidAsValue
    let temporary ← freshTemporary type
    return (temporary, [.assign temporary rhs])

end Lowering
end ClassCompiler
