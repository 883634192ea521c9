import ClassCompiler.Code.Type
import ClassCompiler.Syntax.Operator

/-! Three-address instructions, and the variables that each of them reads and writes. -/

namespace ClassCompiler
set_option autoImplicit false

/-- An operand of an instruction. -/
inductive Element where
  | literal (value : String) (type : CodeType)
  | operand (name : String) (type : CodeType)
  | arrayOperand (name : String) (index : Element) (type : CodeType)
  | self (type : CodeType)
  deriving DecidableEq, Repr, Inhabited

namespace Element

def type : Element → CodeType
  | literal _ type | operand _ type | arrayOperand _ _ type | self type => type

/-- Whether an element may be an operand of an operation, a call or a return: everything
but an element of an array. -/
def isSimple : Element → Bool
  | arrayOperand .. => false
  | _ => true

def isLiteral : Element → Bool
  | literal .. => true
  | _ => false

/-- The variables that are read when an element is evaluated. -/
def names : Element → List String
  | operand name _ => [name]
  | arrayOperand name index _ => name :: index.names
  | literal .. | self _ => []

end Element

/-- How a method is called: on a class, on an object, or as a constructor. -/
inductive Invocation where
  | static (name : String)
  | virtual (target : Element)
  | special (target : Element)
  deriving DecidableEq, Repr

def Invocation.names : Invocation → List String
  | .static _ => []
  | .virtual target | .special target => target.names

structure Call where
  invocation : Invocation
  method : String
  args : List Element
  returnType : CodeType
  deriving DecidableEq, Repr

def Call.names (call : Call) : List String :=
  call.invocation.names ++ call.args.flatMap Element.names

/-- What an assignment stores. -/
inductive Rhs where
  | single (element : Element)
  | binary (op : BinaryOperator) (lhs rhs : Element) (type : CodeType)
  | unary (op : UnaryOperator) (operand : Element) (type : CodeType)
  | call (call : Call)
  | getField (object : Element) (field : String) (type : CodeType)
  | arrayLength (array : Element)
  | newObject (name : String)
  | newArray (size : Element) (element : CodeType)
  deriving DecidableEq, Repr

def Rhs.names : Rhs → List String
  | .single element | .arrayLength element | .unary _ element _ => element.names
  | .binary _ lhs rhs _ => lhs.names ++ rhs.names
  | .call invoked => invoked.names
  | .getField object _ _ => object.names
  | .newObject _ => []
  | .newArray size _ => size.names

inductive Instruction where
  | assign (dest : Element) (rhs : Rhs)
  | call (call : Call)
  | putField (object : Element) (field : String) (value : Element)
  | goto (label : String)
  | branch (cond : Rhs) (target : String)
  | label (name : String)
  | ret (value : Option Element)
  deriving DecidableEq, Repr

namespace Instruction

def def? : Instruction → Option String
  | assign (.operand name _) _ => some name
  | _ => none

/-- The variables that an instruction reads. To store into an element of an array is to
read the array and the index. -/
def uses : Instruction → List String
  | assign (.arrayOperand name index type) rhs =>
    (Element.arrayOperand name index type).names ++ rhs.names
  | assign _ rhs => rhs.names
  | call invoked => invoked.names
  | putField object _ value => object.names ++ value.names
  | branch cond _ => cond.names
  | ret (some value) => value.names
  | ret none | goto _ | label _ => []

def isReturn : Instruction → Bool
  | ret _ => true
  | _ => false

end Instruction

/-- What a method returns when its body comes to its end. -/
def CodeType.defaultValue? : CodeType → Option Element
  | .void => none
  | .int => some (.literal "0" .int)
  | .bool => some (.literal "0" .bool)
  | type => some (.literal "null" type)

end ClassCompiler
