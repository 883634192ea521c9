import ClassCompiler.Syntax.Tree

/-! Trees as indented text: one node on a line, children two blanks further in. -/

namespace ClassCompiler
set_option autoImplicit false

/-- A label on one line: kind, attributes in brackets unless there are none, location. -/
def Label.text (label : Label) : String :=
  let attrs := label.attrs.entries.map fun (key, value) => key ++ "=" ++ value
  let shown := if attrs.isEmpty then "" else "[" ++ ", ".intercalate attrs ++ "]"
  label.kind.name ++ shown ++ " @" ++ label.location.text

namespace Term

mutual

def lines (indent : Nat) : Term → List String
  | .node _ label children =>
    (String.ofList (List.replicate indent ' ') ++ label.text) :: linesAll (indent + 2) children

def linesAll (indent : Nat) : List Term → List String
  | [] => []
  | term :: terms => lines indent term ++ linesAll indent terms

end

def text (term : Term) : String := String.join ((term.lines 0).map (· ++ "\n"))

end Term

def Tree.text (tree : Tree) : String := tree.rootTerm.text

end ClassCompiler
