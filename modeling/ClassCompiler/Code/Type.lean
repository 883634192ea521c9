import ClassCompiler.Syntax.TypeName

/-! The types of three-address code. -/

namespace ClassCompiler
set_option autoImplicit false

inductive CodeType where
  | int
  | bool
  | void
  | str
  | object (name : String)
  | array (element : CodeType)
  deriving DecidableEq, Repr, Inhabited

namespace CodeType

/-- The array type of integers. -/
def intArray : CodeType := .array .int

/-- The type that a name without array brackets stands for; what comes from unknown code
is taken for an integer. -/
def ofName (name : String) : CodeType :=
  if name = "int" then .int
  else if name = "boolean" then .bool
  else if name = "void" then .void
  else if name = "String" then .str
  else if name = "unknown" then .int
  else .object name

def ofTypeName (type : TypeName) : CodeType :=
  if type.isArray then .array (ofName type.name) else ofName type.name

def isVoid : CodeType → Bool
  | void => true
  | _ => false

def text : CodeType → String
  | int => "i32"
  | bool => "bool"
  | void => "V"
  | str => "String"
  | object name => name
  | array element => "array." ++ element.text

end CodeType
end ClassCompiler
