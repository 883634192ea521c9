import ClassCompiler.Symbols.Basic
import ClassCompiler.Syntax.Walk

/-! The symbol table of a tree. Declarations are read in order, and the first malformed
one is the fault of the whole. -/

namespace ClassCompiler
set_option autoImplicit false

/-- The type that a type node names, and whether it stands for any number of values of
its element type; in that case it is an array in any event. -/
def TypeName.ofTerm (term : Term) : Except Fault (TypeName × Bool) := do
  let name ← term.requireAttr "name"
  let varargs := term.flag "isVarargs"
  return (⟨name, term.flag "isArray" || varargs⟩, varargs)

/-- The type of a declaration: that of its first type node. -/
def TypeName.ofDecl (decl : Term) : Except Fault (TypeName × Bool) :=
  match decl.firstOfKind? .typeName with
  | some type => TypeName.ofTerm type
  | none => .error (decl.lacksChild 0)

def Symbol.ofDecl (decl : Term) : Except Fault Symbol := do
  let name ← decl.requireAttr "name"
  let (type, varargs) ← TypeName.ofDecl decl
  return { name, type, varargs }

/-- The signature of a method declaration. Its locals are the variables declared anywhere
below it. -/
def Signature.ofDecl (decl : Term) (isStatic : Bool) : Except Fault Signature := do
  let (returnType, _) ← TypeName.ofDecl decl
  let parameters ← (decl.childrenOfKind .param).mapM Symbol.ofDecl
  let locals ← (decl.descendantsOfKind .varDecl).mapM Symbol.ofDecl
  return { returnType, parameters, locals, isStatic }

namespace SymbolTable

/-- The method names of declarations, and the signature of the first method of each name
that is not among those already known. -/
def readMethods (known : List (String × Signature)) :
    List Term → Except Fault (List String × List (String × Signature))
  | [] => .ok ([], known)
  | decl :: decls => do
    let context ← MethodContext.of decl
    let known ←
      if known.any fun entry => entry.1 == context.name then pure known
      else do
        let signature ← Signature.ofDecl decl context.isStatic
        pure (known ++ [(context.name, signature)])
    let (names, signatures) ← readMethods known decls
    return (context.name :: names, signatures)

def readImports (root : Term) : Except Fault (List String) :=
  if root.kind = .program then
    (root.childrenOfKind .importDecl).mapM fun decl => decl.requireAttr "name"
  else .ok []

def build (tree : Tree) : Except Fault SymbolTable := do
  let decl ← tree.classDecl
  let imports ← readImports tree.rootTerm
  let className ← decl.requireAttr "name"
  let superName := (decl.attr? "extends").getD ""
  let fields ← (decl.childrenOfKind .varDecl).mapM Symbol.ofDecl
  let (methods, signatures) ← readMethods [] (decl.childrenOfKind .methodDecl)
  return { className, superName, imports, fields, methods, signatures }

end SymbolTable
end ClassCompiler
