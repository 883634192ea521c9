import ClassCompiler.Typing.Basic

/-! What a review can find wrong with a class, and the wording of each finding. -/

namespace ClassCompiler
set_option autoImplicit false

inductive Finding where
  | duplicateImport (name : String)
  | duplicateField (name : String)
  | duplicateMethod (name : String)
  | duplicateParameter (method name : String)
  | duplicateLocal (method name : String)
  | localShadowsParameter (method name : String)
  | undeclaredVariable (name : String)
  | usedBeforeDeclaration (name : String) (used declared : UInt32)
  | voidVariable (name : String)
  | arrayInArithmetic (op : BinaryOperator)
  | invalidOperands (op : BinaryOperator) (lhs rhs : TypeName)
  | invalidOperand (op : UnaryOperator) (operand : TypeName)
  | indexedNonArray (type : TypeName)
  | nonIntegerIndex (type : TypeName)
  | lengthOfNonArray (type : TypeName)
  | undeclaredMethod (name : String)
  | argumentCount (method : String) (expected : Nat) (orMore : Bool) (found : Nat)
  | argumentType (method : String) (position : Nat) (expected found : TypeName)
  | callOnPrimitive (method : String) (receiver : TypeName)
  | incompatibleAssignment (target : String) (expected found : TypeName)
  | assignToNonArray (target : String) (found : TypeName)
  | nonBooleanCondition (type : TypeName)
  | misplacedArrayInitializer
  | varargsNotLast (method name : String)
  | multipleVarargs (method : String)
  | varargsVariable (name : String)
  | varargsReturnType (method : String)
  | thisInStaticContext (method : String)
  | fieldInStaticContext (method field : String)
  | missingReturn (method : String)
  | voidReturnWithValue (method : String)
  | missingReturnValue (method : String)
  | incompatibleReturn (method : String) (expected found : TypeName)
  | checkFault (check : String) (cause : Fault)
  | untyped (error : TypeError)

namespace Finding

/-- A name between single quotes. -/
def named (name : String) : String := "'" ++ name ++ "'"

/-- A type between single quotes. -/
def typed (type : TypeName) : String := named type.text

def message : Finding → String
  | duplicateImport name => "duplicate import " ++ named name
  | duplicateField name => "duplicate field " ++ named name
  | duplicateMethod name => "duplicate method " ++ named name
  | duplicateParameter method name =>
    "duplicate parameter " ++ named name ++ " in method " ++ named method
  | duplicateLocal method name =>
    "duplicate local variable " ++ named name ++ " in method " ++ named method
  | localShadowsParameter method name =>
    "local variable " ++ named name ++ " collides with a parameter of method " ++ named method
  | undeclaredVariable name => "variable " ++ named name ++ " is not declared"
  | usedBeforeDeclaration name used declared =>
    "variable " ++ named name ++ " is used at line " ++ toString used.toNat
      ++ " before its declaration at line " ++ toString declared.toNat
  | voidVariable name => "variable " ++ named name ++ " cannot be declared with type 'void'"
  | arrayInArithmetic op => "array cannot be used in arithmetic operation " ++ named op.symbol
  | invalidOperands op lhs rhs =>
    "operator " ++ named op.symbol ++ " cannot be applied to " ++ typed lhs ++ " and " ++ typed rhs
  | invalidOperand op operand =>
    "operator " ++ named op.symbol ++ " cannot be applied to " ++ typed operand
  | indexedNonArray type => "cannot index a value of type " ++ typed type
  | nonIntegerIndex type => "array index must be of type 'int', found " ++ typed type
  | lengthOfNonArray type => "length is only defined on arrays, found " ++ typed type
  | undeclaredMethod name =>
    "method " ++ named name ++ " is not declared and the class has no superclass"
  | argumentCount method expected orMore found =>
    "method " ++ named method ++ " expects " ++ (if orMore then "at least " else "")
      ++ toString expected ++ " argument(s), found " ++ toString found
  | argumentType method position expected found =>
    "argument " ++ toString position ++ " of " ++ named method ++ " expects " ++ typed expected
      ++ ", found " ++ typed found
  | callOnPrimitive method receiver =>
    "cannot call method " ++ named method ++ " on primitive type " ++ typed receiver
  | incompatibleAssignment target expected found =>
    "cannot assign " ++ typed found ++ " to " ++ named target ++ " of type " ++ typed expected
  | assignToNonArray target found =>
    named target ++ " of type " ++ typed found ++ " is not an array"
  | nonBooleanCondition type => "condition must be of type 'boolean', found " ++ typed type
  | misplacedArrayInitializer => "array initializer is only allowed where 'int[]' is expected"
  | varargsNotLast method name =>
    "varargs parameter " ++ named name ++ " must be the last parameter of " ++ named method
  | multipleVarargs method =>
    "method " ++ named method ++ " declares more than one varargs parameter"
  | varargsVariable name => "varargs type is not allowed on variable " ++ named name
  | varargsReturnType method => "varargs type is not allowed as the return type of " ++ named method
  | thisInStaticContext method => "'this' cannot be used in static method " ++ named method
  | fieldInStaticContext method field =>
    "instance field " ++ named field ++ " cannot be used in static method " ++ named method
  | missingReturn method => "method " ++ named method ++ " must return a value"
  | voidReturnWithValue method => "void method " ++ named method ++ " cannot return a value"
  | missingReturnValue method => "return in method " ++ named method ++ " needs a value"
  | incompatibleReturn method expected found =>
    "method " ++ named method ++ " returns " ++ typed found ++ " but declares " ++ typed expected
  | checkFault check cause => "pass " ++ named check ++ " failed unexpectedly: " ++ cause.message
  | untyped error => error.message

end Finding
end ClassCompiler
