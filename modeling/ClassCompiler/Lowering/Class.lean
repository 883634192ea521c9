import ClassCompiler.Lowering.Expr
import ClassCompiler.Symbols.Build

/-! Lowering of statements, methods and classes. -/

namespace ClassCompiler.Lowering
set_option autoImplicit false

/-- Lowers an expression whose value is not used; a call is made for its effect. -/
def lowerEffect (table : SymbolTable) (term : Term) : Lowering (List Instruction) := do
  let lowered ← lowerExpr table (some .void) term
  match lowered.value with
  | .call call => return lowered.code ++ [.call call]
  | _ => return lowered.code

def branchUnless (condition : Element) (target : String) : Instruction :=
  .branch (.unary .not condition .bool) target

/-- The variable that an assignment writes: where it lives, and its type. -/
def targetOf (table : SymbolTable) (term : Term) (name : String) :
    Lowering (VarScope × CodeType) := do
  match table.resolve (some (← get).method) name with
  | .localVar symbol => return (.localVar, .ofTypeName symbol.type)
  | .parameter _ symbol => return (.parameter, .ofTypeName symbol.type)
  | .field symbol => return (.field, .ofTypeName symbol.type)
  | .imported _ | .unresolved => refuse (.noTarget name term.location.line)

/-- Lowers an assignment to a variable. -/
def lowerAssign (table : SymbolTable) (term : Term) : Lowering (List Instruction) := do
  let name ← require (term.requireAttr "name")
  let value ← require (term.child 0)
  let (scope, type) ← targetOf table term name
  match scope with
  | .field =>
    let (element, code) ← lowerSimple table (some type) value
    noteField name type
    return code ++ [.putField (← self) name element]
  | .localVar | .parameter =>
    let lowered ← lowerExpr table (some type) value
    let rhs ← rhsOf lowered.value
    return lowered.code ++ [.assign (.operand name type) rhs]

/-- The name of the variable that holds an array, after a field has been read into a
temporary. -/
def arrayVariable (scope : VarScope) (name : String) (type : CodeType) :
    Lowering (String × List Instruction) := do
  match scope with
  | .field =>
    noteField name type
    let temporary ← freshName type
    return (temporary, [.assign (.operand temporary type) (.getField (← self) name type)])
  | .localVar | .parameter => return (name, [])

def lowerArrayAssign (table : SymbolTable) (term : Term) : Lowering (List Instruction) := do
  let name ← require (term.requireAttr "name")
  let (scope, type) ← targetOf table term name
  match type with
  | .array elementType =>
    let (array, read) ← arrayVariable scope name type
    let (index, indexCode) ← lowerIndex table (← require (term.child 0))
    let (value, valueCode) ← lowerSimple table (some elementType) (← require (term.child 1))
    return read ++ indexCode ++ valueCode
      ++ [.assign (.arrayOperand array index elementType) (.single value)]
  | _ => refuse (.notAnArray name)

def lowerReturn (table : SymbolTable) (term : Term) : Lowering (List Instruction) := do
  match term.children with
  | [] => return [.ret none]
  | value :: _ =>
    let hint := (table.returnType? (← get).method).map CodeType.ofTypeName
    let (element, code) ← lowerSimple table hint value
    return code ++ [.ret (some element)]

def labelName (word : String) (number : Nat) : String := word ++ "_" ++ toString number

mutual

/-- Lowers a statement, or an expression in its place. What is neither has no code. -/
def lowerStmt (table : SymbolTable) : Term → Lowering (List Instruction)
  | .node id label children =>
    let self := Term.node id label children
    if label.kind.isExpression then lowerEffect table self
    else
      match label.kind with
      | .block => lowerStmts table children
      | .exprStmt => do lowerEffect table (← require (self.child 0))
      | .assign => lowerAssign table self
      | .arrayAssign => lowerArrayAssign table self
      | .ret => lowerReturn table self
      | .ifElse => do
        let number ← nextLabel
        let elseLabel := labelName "else" number
        let endLabel := labelName "endif" number
        match children with
        | [] => throw (.malformed (self.lacksChild 0))
        | condition :: branches =>
          let (condition, code) ← lowerSimple table (some .bool) condition
          match branches with
          | [] => throw (.malformed (self.lacksChild 1))
          | yes :: others =>
            let yesCode ← lowerStmt table yes
            let noCode ← match others with
              | [] => pure []
              | no :: _ => lowerStmt table no
            return code ++ [branchUnless condition elseLabel] ++ yesCode
              ++ [.goto endLabel, .label elseLabel] ++ noCode ++ [.label endLabel]
      | .whileLoop => do
        let number ← nextLabel
        let headLabel := labelName "loop" number
        let endLabel := labelName "endloop" number
        match children with
        | [] => throw (.malformed (self.lacksChild 0))
        | condition :: rest =>
          let (condition, code) ← lowerSimple table (some .bool) condition
          match rest with
          | [] => throw (.malformed (self.lacksChild 1))
          | body :: _ =>
            let bodyCode ← lowerStmt table body
            return [.label headLabel] ++ code ++ [branchUnless condition endLabel] ++ bodyCode
              ++ [.goto headLabel, .label endLabel]
      | .forLoop => do
        match children with
        | [] => throw (.malformed (self.lacksChild 0))
        | init :: rest =>
          let initCode ← lowerStmt table init
          let number ← nextLabel
          let headLabel := labelName "forloop" number
          let endLabel := labelName "endforloop" number
          match rest with
          | [] => throw (.malformed (self.lacksChild 1))
          | condition :: rest =>
            let (condition, code) ← lowerSimple table (some .bool) condition
            match rest with
            | update :: body :: _ =>
              let bodyCode ← lowerStmt table body
              let updateCode ← lowerStmt table update
              return initCode ++ [.label headLabel] ++ code ++ [branchUnless condition endLabel]
                ++ bodyCode ++ updateCode ++ [.goto headLabel, .label endLabel]
            | _ => throw (.malformed (self.lacksChild 3))
      | _ => return []

def lowerStmts (table : SymbolTable) : List Term → Lowering (List Instruction)
  | [] => return []
  | term :: terms => do
    let code ← lowerStmt table term
    let rest ← lowerStmts table terms
    return code ++ rest

end

def declareParams (params : List Term) : Lowering (List TypedName) :=
  params.mapM fun param => do
    let name ← require (param.requireAttr "name")
    let type := CodeType.ofTypeName (← require (TypeName.ofDecl param)).1
    declare name .parameter type
    return { name, type }

def declareLocals (decls : List Term) : Lowering Unit :=
  decls.forM fun decl => do
    let type := CodeType.ofTypeName (← require (TypeName.ofDecl decl)).1
    declare (← require (decl.requireAttr "name")) .localVar type

/-- The statements and declarations of a method, without its type and its parameters. -/
def bodyOf (decl : Term) : List Term :=
  decl.children.filter fun child => child.kind ≠ .typeName && child.kind ≠ .param

/-- Code that ends with a return: the default one is added where the code does not. -/
def withReturn (code : List Instruction) (type : CodeType) : List Instruction :=
  if (code.getLast?.map Instruction.isReturn).getD false then code
  else code ++ [.ret type.defaultValue?]

/-- Lowers the declarations and the body of a method whose context is known. -/
def lowerBody (table : SymbolTable) (decl : Term) (context : MethodContext) : Lowering Method := do
  if !context.isStatic then
    declare "this" .localVar (.object table.className)
  let params ← declareParams (decl.childrenOfKind .param)
  declareLocals (decl.descendantsOfKind .varDecl)
  let code ← lowerStmts table (bodyOf decl)
  let returnType := CodeType.ofTypeName (← require (TypeName.ofDecl decl)).1
  return {
    name := context.name
    isPublic := ((decl.attr? "isPublic").map (· == "true")).getD true
    isStatic := context.isStatic
    params
    returnType
    code := withReturn code returnType
    vars := (← get).vars }

def lowerMethod (table : SymbolTable) (decl : Term) : Except LoweringError Method := do
  let context ← (MethodContext.of decl).mapError .malformed
  let frame : Frame := { method := context.name, className := table.className }
  ((lowerBody table decl context).run.run frame).1

end ClassCompiler.Lowering

namespace ClassCompiler

def lowerClass (tree : Tree) (table : SymbolTable) : Except LoweringError ClassUnit := do
  let decl ← tree.classDecl.mapError .malformed
  let methods ← (decl.childrenOfKind .methodDecl).mapM (Lowering.lowerMethod table)
  return {
    name := table.className
    superclass := if table.hasSuper then some table.superName else none
    imports := table.importNames
    fields := table.fields.map fun field => ⟨field.name, .ofTypeName field.type⟩
    methods }

end ClassCompiler
