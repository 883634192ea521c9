import ClassCompiler.CommandLine.Help

/-! The program: reads the file of a command, prints and writes its outcome. -/

namespace ClassCompiler.CommandLine
set_option autoImplicit false

def fileError : IO.Error → FileError
  | .permissionDenied .. => .denied
  | .inappropriateType _ code _ => if code = 21 then .isADirectory else .notADirectory
  | .invalidArgument .. => .nameTooLong
  | .userError _ => .notText
  | _ => .notFound

/-- The content of a file, or why it cannot be read. -/
def readContent (path : String) : IO (Except FileError String) := do
  try return .ok (← IO.FS.readFile path)
  catch error => return .error (fileError error)

/-- Writes the file of an outcome, and says what was in the way. -/
def writeOutput (outcome : Outcome) : IO (Option FileError) := do
  match outcome.written with
  | none => return none
  | some (path, text) =>
    try
      IO.FS.writeFile path text
      return none
    catch error => return some (fileError error)

def printOutcome (outcome : Outcome) : IO UInt32 := do
  (← IO.getStderr).putStr outcome.stderr
  (← IO.getStdout).putStr outcome.stdout
  return outcome.code.toUInt32

/-- Carries out the command that arguments stand for, and gives its exit code. A file that
cannot be written makes the command fail. -/
def runProgram (args : List String) : IO UInt32 := do
  match parse args with
  | .error stop => printOutcome stop.outcome
  | .ok command =>
    let content ← readContent command.input
    let obstacle ← writeOutput (command.run content none)
    printOutcome (command.run content obstacle)

end ClassCompiler.CommandLine

def main (args : List String) : IO UInt32 := ClassCompiler.CommandLine.runProgram args
