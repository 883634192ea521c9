import ClassCompiler.Syntax.Label

/-! Reports about a program: how grave, from which stage, where, and what. -/

namespace ClassCompiler
set_option autoImplicit false

inductive Severity where
  | error
  | warning
  | log
  | debug
  deriving DecidableEq, Repr

inductive Stage where
  | semantic
  | optimization
  | lowering
  deriving DecidableEq, Repr

def Severity.text : Severity → String
  | .error => "error"
  | .warning => "warning"
  | .log => "log"
  | .debug => "debug"

def Stage.text : Stage → String
  | .semantic => "semantic"
  | .optimization => "optimization"
  | .lowering => "lowering"

/-- A report. The line of one without a place is minus one. -/
structure Report where
  severity : Severity
  stage : Stage
  line : Int32
  column : Int32
  message : String
  cause : Option String := none
  deriving DecidableEq

namespace Report

/-- A semantic error at a place. The numbers of the place are read as signed words. -/
def semanticError (location : Location) (message : String) : Report :=
  { severity := .error, stage := .semantic, message,
    line := location.line.toInt32, column := location.column.toInt32 }

def unlocated (stage : Stage) (message : String) : Report :=
  { severity := .error, stage, line := -1, column := -1, message }

def isError (report : Report) : Bool := report.severity == .error

/-- The place as the text shows it, nothing when there is none. -/
def placeText (report : Report) : String :=
  if report.line = -1 then ""
  else " " ++ toString report.line.toInt ++ ":" ++ toString report.column.toInt

def text (report : Report) : String :=
  let cause := match report.cause with
    | some cause => " (caused by: " ++ cause ++ ")"
    | none => ""
  report.severity.text ++ " [" ++ report.stage.text ++ "]" ++ report.placeText ++ ": "
    ++ report.message ++ cause

end Report

def hasErrors (reports : List Report) : Bool := reports.any Report.isError

end ClassCompiler
