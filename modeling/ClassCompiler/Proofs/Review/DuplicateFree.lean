import ClassCompiler.Proofs.Symbols.Signatures
import ClassCompiler.Syntax.Draft

/-! What the check for repeated declarations establishes. The table of a class goes by names, so
that a method can count on what it finds there only if no other one has its name. -/

namespace ClassCompiler
set_option autoImplicit false

open Review

/-- A table has under a name what the declaration of a method of that name says. -/
structure SymbolTable.Describes (table : SymbolTable) (name : String) (method : Term) : Prop where
  named : method.attr? "name" = some name
  returns : ∃ type varargs, TypeName.ofDecl method = .ok (type, varargs) ∧
    table.returnType? name = some type
  parameters : (method.childrenOfKind .param).mapM Symbol.ofDecl = .ok (table.parameters name)
  locals : (method.descendantsOfKind .varDecl).mapM Symbol.ofDecl = .ok (table.locals name)

theorem describes_of_signature {table : SymbolTable} {method : Term} {name : String}
    {isStatic : Bool} {signature : Signature} (named : method.attr? "name" = some name)
    (own : Signature.ofDecl method isStatic = .ok signature)
    (found : table.signature? name = some signature) : table.Describes name method := by
  simp only [Signature.ofDecl, except_bind_eq_ok] at own
  obtain ⟨⟨type, varargs⟩, htype, parameters, hparameters, locals, hlocals, own⟩ := own
  cases own
  constructor
  · exact named
  · exact ⟨type, varargs, htype, by rw [SymbolTable.returnType?, found, Option.map_some]⟩
  · rw [hparameters, SymbolTable.parameters, found, Option.map_some, Option.getD_some]
  · rw [hlocals, SymbolTable.locals, found, Option.map_some, Option.getD_some]

/-- Where the check for repeated declarations comes to its end, it is silent exactly when imports,
fields, methods and the variables of each method have names of their own. Then each method finds
what its own declaration says under its name in the table of the class. -/
theorem duplicateDeclarations_silent_iff {subject : Subject} {reports reports' : List Report}
    (run : Runs (duplicateDeclarations.run subject) reports () reports') :
    ∃ decl, subject.tree.classDecl = .ok decl ∧
      (reports' = reports ↔ DuplicateFree subject.tree decl) ∧
      (reports' = reports → SymbolTable.build subject.tree = .ok subject.table →
        ∀ method ∈ decl.childrenOfKind .methodDecl,
          ∃ name, subject.table.Describes name method) := by
  obtain ⟨decl, hclass, -⟩ := runs_require_bind.mp run
  have silent := (silentIff_duplicateDeclarations hclass).iff_of_runs run
  refine ⟨decl, hclass, silent, ?_⟩
  intro quiet built method hmethod
  obtain ⟨context, signature, hcontext, own, found⟩ :=
    signature_of_build built hclass (silent.mp quiet).methods hmethod
  exact ⟨context.name, describes_of_signature (methodContext_eq_ok hcontext) own found⟩

section Tallying
open Draft

/-- A class with an import, a field and two methods. The first has a variable in a block inside
another one, and the second a parameter of the same name. -/
def tallying : Construction NodeId := do
  let inner ← block [← varDecl "step" .int 5] 5
  let body ← block [inner] 4
  let add ← method "add" .void [← param "by" .int 3] [← varDecl "sum" .int 4, body] false 3
  let full ← method "full" .boolean [← param "step" .int 8] [] false 8
  program ["java.util.List"] (← classDecl "Tally" none [← varDecl "count" .int 2, add, full] 1)

def tallyingTree : Tree := (tallying.run {}).2.finish (tallying.run {}).1

def tallyingTable : SymbolTable where
  className := "Tally"
  superName := ""
  imports := ["java.util.List"]
  fields := [⟨"count", .int, false⟩]
  methods := ["add", "full"]
  signatures :=
    [("add", ⟨.void, [⟨"by", .int, false⟩], [⟨"sum", .int, false⟩, ⟨"step", .int, false⟩], false⟩),
      ("full", ⟨.boolean, [⟨"step", .int, false⟩], [], false⟩)]

theorem duplicateDeclarations_silent_iff_tallying :
    Runs (duplicateDeclarations.run ⟨tallyingTree, tallyingTable⟩) [] () [] ∧
    SymbolTable.build tallyingTree = .ok tallyingTable ∧
    ∃ decl, tallyingTree.classDecl = .ok decl ∧ DuplicateFree tallyingTree decl ∧
      ∀ method ∈ decl.childrenOfKind .methodDecl,
        ∃ name, tallyingTable.Describes name method := by
  have run : Runs (duplicateDeclarations.run ⟨tallyingTree, tallyingTable⟩) [] () [] := by decide +kernel
  have built : SymbolTable.build tallyingTree = .ok tallyingTable := by decide +kernel
  obtain ⟨decl, hclass, silent, describes⟩ := duplicateDeclarations_silent_iff run
  exact ⟨run, built, decl, hclass, silent.mp rfl, describes rfl built⟩

end Tallying
end ClassCompiler
