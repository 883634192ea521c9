import ClassCompiler.Code.Instruction
import ClassCompiler.Text.Characters

/-! What an expression yields before it is stored anywhere, and the form in which a
message shows it with all its parts. -/

namespace ClassCompiler
set_option autoImplicit false

/-- What an expression yields. The name of an imported class is only of use as the
receiver of a call. -/
inductive Value where
  | element (element : Element)
  | getField (field : String) (type : CodeType)
  | call (call : Call)
  | classRef (name : String)
  deriving DecidableEq, Repr

/-- A constructor applied to named parts. -/
def recordText (name : String) (parts : List (String × String)) : String :=
  let shown := parts.map fun (label, part) => label ++ ": " ++ part
  name ++ " \x7b " ++ ", ".intercalate shown ++ " \x7d"

def CodeType.structureText : CodeType → String
  | .int => "Int"
  | .bool => "Bool"
  | .void => "Void"
  | .str => "Str"
  | .object name => "Class(" ++ Text.quoted name ++ ")"
  | .array element => "Array(" ++ element.structureText ++ ")"

def Element.structureText : Element → String
  | .literal value type =>
    recordText "Literal" [("value", Text.quoted value), ("ty", type.structureText)]
  | .operand name type =>
    recordText "Operand" [("name", Text.quoted name), ("ty", type.structureText)]
  | .arrayOperand name index type =>
    recordText "ArrayOperand"
      [("name", Text.quoted name), ("index", index.structureText), ("ty", type.structureText)]
  | .self type => recordText "This" [("ty", type.structureText)]

def Invocation.structureText : Invocation → String
  | .static name => "Static(" ++ Text.quoted name ++ ")"
  | .virtual target => "Virtual(" ++ target.structureText ++ ")"
  | .special target => "Special(" ++ target.structureText ++ ")"

def Call.structureText (call : Call) : String :=
  recordText "Call"
    [("invocation", call.invocation.structureText), ("method", Text.quoted call.method),
     ("args", "[" ++ ", ".intercalate (call.args.map Element.structureText) ++ "]"),
     ("return_type", call.returnType.structureText)]

def Value.structureText : Value → String
  | .element operand => "Element(" ++ operand.structureText ++ ")"
  | .getField field type =>
    recordText "GetField" [("field", Text.quoted field), ("ty", type.structureText)]
  | .call invoked => "Call(" ++ invoked.structureText ++ ")"
  | .classRef name => "ClassRef(" ++ Text.quoted name ++ ")"

end ClassCompiler
