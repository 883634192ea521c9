import ClassCompiler.Review.Check
import ClassCompiler.Symbols.Build

/-! Checks of declarations: repeated names, uses above a declaration, variables of no
value, and the places where a variadic type may stand. -/

namespace ClassCompiler.Review
set_option autoImplicit false

/-- The declarations whose name an earlier one has, after names already seen. -/
def repeatedAfter (seen : List String) : List Term → Except Fault (List (Term × String))
  | [] => .ok []
  | decl :: decls => do
    let name ← decl.requireAttr "name"
    if seen.contains name then return (decl, name) :: (← repeatedAfter seen decls)
    else repeatedAfter (name :: seen) decls

/-- The declarations whose name an earlier one has. -/
def repeated (decls : List Term) : Except Fault (List (Term × String)) := repeatedAfter [] decls

/-- Reports every declaration whose name an earlier one has. -/
def reportRepeated (decls : List Term) (finding : String → Finding) : Review Unit := do
  for (decl, name) in ← require (repeated decls) do
    report decl (finding name)

/-- Reports the imports whose simple name is among those seen or that of an earlier one. -/
def reportImports (seen : List String) : List Term → Review Unit
  | [] => pure ()
  | decl :: decls => do
    let simple := simpleName (← require (decl.requireAttr "name"))
    if seen.contains simple then
      report decl (.duplicateImport simple)
      reportImports seen decls
    else reportImports (simple :: seen) decls

/-- Reports the locals that have the name of a parameter. -/
def reportShadows (method : String) (params locals : List Term) : Review Unit := do
  let names ← require (params.mapM fun param => param.requireAttr "name")
  for decl in locals do
    let name ← require (decl.requireAttr "name")
    if names.contains name then
      report decl (.localShadowsParameter method name)

def reportMethodNames (decl : Term) : Review Unit := do
  let method ← require (decl.requireAttr "name")
  let params := decl.childrenOfKind .param
  reportRepeated params (.duplicateParameter method)
  let locals := decl.descendantsOfKind .varDecl
  reportRepeated locals (.duplicateLocal method)
  reportShadows method params locals

/-- Imports, fields, methods, parameters and locals have names of their own. -/
def duplicateDeclarations : Check where
  name := "duplicate-declarations"
  run subject := do
    let decl ← require subject.tree.classDecl
    let root := subject.tree.rootTerm
    if root.kind = .program then
      reportImports [] (root.childrenOfKind .importDecl)
    reportRepeated (decl.childrenOfKind .varDecl) .duplicateField
    let methods ← methods subject
    reportRepeated methods .duplicateMethod
    methods.forM reportMethodNames

/-- The lines of declarations and the first uses of locals, gathered from the terms of a
method. -/
structure LocalLines where
  declared : NameMap UInt32 := {}
  used : NameMap Term := {}

namespace LocalLines

/-- Notes a declaration unless the name has one. -/
def declare (lines : LocalLines) (name : String) (line : UInt32) : LocalLines :=
  if lines.declared.contains name then lines
  else { lines with declared := lines.declared.insert name line }

/-- Notes a use unless the name has one on the same line or above. -/
def use (lines : LocalLines) (name : String) (term : Term) : LocalLines :=
  match lines.used.get? name with
  | some earlier =>
    if term.location.line < earlier.location.line then
      { lines with used := lines.used.insert name term }
    else lines
  | none => { lines with used := lines.used.insert name term }

def note (table : SymbolTable) (method : String) (lines : LocalLines) (term : Term) :
    Except Fault LocalLines :=
  match term.kind with
  | .varDecl => do return lines.declare (← term.requireAttr "name") term.location.line
  | .identifier | .assign | .arrayAssign => do
    let name ← term.requireAttr "name"
    if (table.resolve (some method) name).isLocal then return lines.use name term
    else return lines
  | _ => .ok lines

/-- The order of uses: by line, and by number on one line. -/
def before (a b : String × Term) : Bool :=
  a.2.location.line < b.2.location.line
    || (a.2.location.line == b.2.location.line && a.2.id ≤ b.2.id)

end LocalLines

/-- Reports the locals of a method that are used above their declaration. -/
def reportEarlyUses (subject : Subject) (decl : Term) : Review Unit := do
  let method ← require (decl.requireAttr "name")
  let lines ← require (decl.descendants.foldlM (LocalLines.note subject.table method) {})
  for (name, term) in lines.used.entries.mergeSort LocalLines.before do
    if let some declared := lines.declared.get? name then
      if term.location.line < declared then
        report term (.usedBeforeDeclaration name term.location.line declared)

/-- No local is read or assigned above the line of its declaration. -/
def declarationOrder : Check where
  name := "declaration-order"
  run subject := do (← methods subject).forM (reportEarlyUses subject)

/-- No variable is declared void. -/
def voidVariables : Check where
  name := "void-variables"
  run subject := do
    for decl in subject.tree.rootTerm.descendantsOfKind .varDecl do
      let (type, _) ← require (TypeName.ofDecl decl)
      if type.isVoid then
        report decl (.voidVariable (← require (decl.requireAttr "name")))

/-- Reports the variadic types of one method that are out of place. -/
def reportMethodVarargs (decl : Term) : Review Unit := do
  let method ← require (decl.requireAttr "name")
  let (_, variadicReturn) ← require (TypeName.ofDecl decl)
  if variadicReturn then
    report decl (.varargsReturnType method)
  let params := decl.childrenOfKind .param
  let marked ← require (params.mapM fun param => do return (param, (← TypeName.ofDecl param).2))
  let variadic := marked.zipIdx.filter fun ((_, varargs), _) => varargs
  if variadic.length > 1 then
    report decl (.multipleVarargs method)
  for ((param, _), position) in variadic do
    if position + 1 ≠ params.length then
      report param (.varargsNotLast method (← require (param.requireAttr "name")))

/-- A variadic type stands only on the last parameter of a method. -/
def varargs : Check where
  name := "varargs"
  run subject := do
    (← methods subject).forM reportMethodVarargs
    for decl in subject.tree.rootTerm.descendantsOfKind .varDecl do
      let (_, variadic) ← require (TypeName.ofDecl decl)
      if variadic then
        report decl (.varargsVariable (← require (decl.requireAttr "name")))

end ClassCompiler.Review
