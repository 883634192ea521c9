import ClassCompiler.Review.Check

/-! Checks of the names that statements and expressions use. -/

namespace ClassCompiler.Review
set_option autoImplicit false

/-- Whether a term names a variable: it reads one or assigns to one. -/
def namesVariable (term : Term) : Bool :=
  match term.kind with
  | .identifier | .assign | .arrayAssign => true
  | _ => false

/-- Every variable that is named means something. -/
def undeclaredVariables : Check where
  name := "undeclared-variables"
  run subject := atVisits subject fun visit => do
    if namesVariable visit.term then
      let name ← require (visit.term.requireAttr "name")
      if !(subject.table.resolve visit.scope.methodName? name).isResolved then
        report visit.term (.undeclaredVariable name)

/-- A static method uses neither its object nor a field. -/
def staticContext : Check where
  name := "static-context"
  run subject := atVisits subject fun visit => do
    if let some method := visit.scope.staticMethod? then
      if visit.term.kind = .thisRef then
        report visit.term (.thisInStaticContext method.name)
      else if namesVariable visit.term then
        let name ← require (visit.term.requireAttr "name")
        if let .field field := subject.table.resolve (some method.name) name then
          report visit.term (.fieldInStaticContext method.name field.name)

end ClassCompiler.Review
