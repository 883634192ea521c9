import ClassCompiler.CommandLine.Arguments
import ClassCompiler.Compilation
import ClassCompiler.Symbols.Printer
import ClassCompiler.Syntax.Printer

/-! What a command does, given the content of its file: its exit code, what it prints and
what it writes. -/

namespace ClassCompiler.CommandLine
set_option autoImplicit false

/-- The effects of a command. -/
structure Outcome where
  code : Nat := 0
  stdout : String := ""
  stderr : String := ""
  written : Option (String × String) := none
  deriving DecidableEq, Repr

/-- Why a command fails: a message, and the text of what is behind it. -/
structure Failure where
  message : String
  cause : Option String := none
  deriving DecidableEq, Repr

namespace Failure

/-- Every line of a cause is indented. -/
def causeText (cause : String) : String :=
  "\nCaused by:\n" ++ String.join ((cause.splitOn "\n").map fun line => "    " ++ line ++ "\n")

def text (failure : Failure) : String :=
  "Error: " ++ failure.message ++ "\n" ++ (failure.cause.map causeText).getD ""

def ofCompileError (error : CompileError) : Failure := ⟨error.message, error.cause?⟩

end Failure

namespace Outcome

def fail (outcome : Outcome) (failure : Failure) : Outcome :=
  { outcome with code := 1, stderr := outcome.stderr ++ failure.text }

/-- The outcome of a command that may fail before it does anything. -/
def ofExcept : Except Failure Outcome → Outcome
  | .ok outcome => outcome
  | .error failure => Outcome.fail {} failure

end Outcome

def reportLines (reports : List Report) : String :=
  String.join (reports.map fun report => report.text ++ "\n")

/-- The tree of a file, given its content or why it cannot be read. -/
def loadFile (path : String) (content : Except FileError String) : Except Failure Tree :=
  match content with
  | .error error => .error ⟨"cannot read " ++ path, some error.message⟩
  | .ok text => (Tree.load text).mapError fun error => .ofCompileError (.ofLoad error)

/-- Puts the code of a class to a file, unless something is in the way, or prints it when
there is none. -/
def emit (before : Outcome) (output : Option String) (obstacle : Option FileError)
    (text : String) : Except Outcome Outcome :=
  match output, obstacle with
  | none, _ => .ok { before with stdout := text }
  | some path, none => .ok { before with written := some (path, text) }
  | some path, some error => .error (before.fail ⟨"cannot write " ++ path, some error.message⟩)

/-- Reports on a compilation and puts out its code. -/
def finishCompile (input : String) (output : Option String) (obstacle : Option FileError)
    (compilation : Compilation) : Outcome :=
  let reported : Outcome := { stderr := reportLines compilation.reports }
  match compilation.codeText? with
  | none => reported.fail { message := input ++ ": semantic analysis failed" }
  | some text =>
    match emit reported output obstacle text with
    | .error failed => failed
    | .ok done =>
      if compilation.hasErrors then done.fail { message := input ++ ": register allocation failed" }
      else done

/-- Reports on the check of a class. -/
def finishCheck (input : String) (reports : List Report) : Outcome :=
  let reported : Outcome := { stderr := reportLines reports }
  if hasErrors reports then
    let count := (reports.filter Report.isError).length
    reported.fail { message := input ++ ": " ++ toString count ++ " error(s)" }
  else { reported with stdout := input ++ ": ok\n" }

namespace Command

def input : Command → String
  | .compile input _ _ _ | .check input | .symbols input | .tree input => input

def output? : Command → Option String
  | .compile _ output _ _ => output
  | _ => none

/-- The effects of a command, given the content of its file or why it cannot be read, and
what is in the way of writing its output. -/
def run (command : Command) (content : Except FileError String) (obstacle : Option FileError) :
    Outcome :=
  Outcome.ofExcept do
    let tree ← loadFile command.input content
    match command with
    | .compile input output optimize registers =>
      let options : Options := { optimize, registers := registers.getD (-1) }
      let compilation ← (ClassCompiler.compile tree options).mapError .ofCompileError
      return finishCompile input output obstacle compilation
    | .check input =>
      let (_, reports) ← (ClassCompiler.check tree).mapError fun fault =>
        .ofCompileError (.malformed fault)
      return finishCheck input reports
    | .symbols _ =>
      let table ← (SymbolTable.build tree).mapError fun fault => { message := fault.message }
      return { stdout := table.text }
    | .tree _ => return { stdout := tree.text }

end Command
end ClassCompiler.CommandLine
