import ClassCompiler.Code.Unit

/-! Three-address code as text. -/

namespace ClassCompiler
set_option autoImplicit false

def Element.text : Element → String
  | .literal value type => value ++ "." ++ type.text
  | .operand name type => name ++ "." ++ type.text
  | .arrayOperand name index type => name ++ "[" ++ index.text ++ "]." ++ type.text
  | .self _ => "this"

/-- The keyword of a call and its receiver. -/
def Invocation.text : Invocation → String
  | .static name => "invokestatic(" ++ name
  | .virtual target => "invokevirtual(" ++ target.text
  | .special target => "invokespecial(" ++ target.text

def Call.text (call : Call) : String :=
  call.invocation.text ++ ", \"" ++ call.method ++ "\""
    ++ String.join (call.args.map fun arg => ", " ++ arg.text) ++ ")." ++ call.returnType.text

def Rhs.text : Rhs → String
  | .single element => element.text
  | .binary op lhs rhs type => lhs.text ++ " " ++ op.symbol ++ "." ++ type.text ++ " " ++ rhs.text
  | .unary op operand type => op.symbol ++ "." ++ type.text ++ " " ++ operand.text
  | .call invoked => invoked.text
  | .getField object field type =>
    "getfield(" ++ object.text ++ ", " ++ field ++ "." ++ type.text ++ ")." ++ type.text
  | .arrayLength array => "arraylength(" ++ array.text ++ ").i32"
  | .newObject name => "new(" ++ name ++ ")." ++ name
  | .newArray size element => "new(array, " ++ size.text ++ ").array." ++ element.text

def Instruction.text : Instruction → String
  | .assign dest rhs => dest.text ++ " :=." ++ dest.type.text ++ " " ++ rhs.text ++ ";"
  | .call invoked => invoked.text ++ ";"
  | .putField object field value =>
    "putfield(" ++ object.text ++ ", " ++ field ++ "." ++ value.type.text ++ ", " ++ value.text
      ++ ").V;"
  | .goto target => "goto " ++ target ++ ";"
  | .branch cond target => "if (" ++ cond.text ++ ") goto " ++ target ++ ";"
  | .label name => name ++ ":"
  | .ret (some value) => "ret." ++ value.type.text ++ " " ++ value.text ++ ";"
  | .ret none => "ret.V;"

/-- The line of an instruction: labels stand at the margin and all else is indented. -/
def Instruction.line : Instruction → String
  | .label name => Instruction.text (.label name)
  | instruction => "  " ++ instruction.text

def TypedName.text (typed : TypedName) : String := typed.name ++ "." ++ typed.type.text

namespace Method

def heading (method : Method) : String :=
  let access := if method.isPublic then "public" else "private"
  let modifier := if method.isStatic then " static" else ""
  let params := ", ".intercalate (method.params.map TypedName.text)
  ".method " ++ access ++ modifier ++ " " ++ method.name ++ "(" ++ params ++ ")."
    ++ method.returnType.text ++ " \x7b"

def lines (method : Method) : List String :=
  method.heading :: method.code.map Instruction.line ++ ["\x7d"]

/-- The text of a method; every line ends with a line break. -/
def text (method : Method) : String := String.join (method.lines.map (· ++ "\n"))

end Method

namespace ClassUnit

def heading (unit : ClassUnit) : String :=
  match unit.superclass with
  | some parent => unit.name ++ " extends " ++ parent ++ " \x7b"
  | none => unit.name ++ " \x7b"

def constructorLines (unit : ClassUnit) : List String :=
  [".construct " ++ unit.name ++ "().V \x7b", "  invokespecial(this, \"<init>\").V;", "\x7d"]

def lines (unit : ClassUnit) : List String :=
  unit.imports.map (fun name => "import " ++ name ++ ";")
    ++ [unit.heading]
    ++ unit.fields.map (fun field => ".field private " ++ field.text ++ ";")
    ++ unit.constructorLines
    ++ unit.methods.flatMap Method.lines
    ++ ["\x7d"]

/-- The text of a class; every line ends with a line break. -/
def text (unit : ClassUnit) : String := String.join (unit.lines.map (· ++ "\n"))

end ClassUnit
end ClassCompiler
