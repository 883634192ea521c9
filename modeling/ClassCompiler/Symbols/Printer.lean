import ClassCompiler.Symbols.Basic

/-! Symbol tables as text: imports, the class, its fields, and every method once with its
locals. -/

namespace ClassCompiler
set_option autoImplicit false

/-- A parameter in a method's heading; three dots mark a variadic one. -/
def Symbol.parameterText (symbol : Symbol) : String :=
  if symbol.varargs then symbol.type.name ++ "... " ++ symbol.name
  else symbol.type.text ++ " " ++ symbol.name

namespace SymbolTable

def classText (table : SymbolTable) : String :=
  if table.hasSuper then "class " ++ table.className ++ " extends " ++ table.superName
  else "class " ++ table.className

/-- The lines of a method: its heading and its locals. -/
def methodLines (method : String) (signature : Signature) : List String :=
  let modifier := if signature.isStatic then "static " else ""
  let parameters := ", ".intercalate (signature.parameters.map Symbol.parameterText)
  let heading := signature.returnType.text ++ " " ++ method ++ "(" ++ parameters ++ ")"
  let locals := signature.locals.map fun symbol =>
    "    local " ++ symbol.type.text ++ " " ++ symbol.name
  ("  method " ++ modifier ++ heading) :: locals

def lines (table : SymbolTable) : List String :=
  table.imports.map ("import " ++ ·)
    ++ [table.classText]
    ++ table.fields.map (fun field => "  field " ++ field.type.text ++ " " ++ field.name)
    ++ table.signatures.flatMap fun (method, signature) => methodLines method signature

def text (table : SymbolTable) : String := String.join (table.lines.map (· ++ "\n"))

end SymbolTable
end ClassCompiler
