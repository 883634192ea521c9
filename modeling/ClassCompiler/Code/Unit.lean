import ClassCompiler.Code.Instruction
import ClassCompiler.Text.NameMap

/-! Methods and classes of three-address code. -/

namespace ClassCompiler
set_option autoImplicit false

/-- What a variable of a method is. A field never holds a register. -/
inductive VarScope where
  | localVar
  | parameter
  | field
  deriving DecidableEq, Repr

/-- What is known about a variable of a method. A register is a 32-bit number, here the integer that
it denotes; the register of a field is minus one. -/
structure Descriptor where
  scope : VarScope
  register : Int
  type : CodeType
  deriving DecidableEq, Repr

/-- A field or a parameter. -/
structure TypedName where
  name : String
  type : CodeType
  deriving DecidableEq, Repr

structure Method where
  name : String
  isPublic : Bool
  isStatic : Bool
  params : List TypedName
  returnType : CodeType
  code : List Instruction
  vars : NameMap Descriptor
  deriving DecidableEq

structure ClassUnit where
  name : String
  superclass : Option String
  imports : List String
  fields : List TypedName
  methods : List Method
  deriving DecidableEq

def ClassUnit.method? (unit : ClassUnit) (name : String) : Option Method :=
  unit.methods.find? fun method => method.name == name

end ClassCompiler
