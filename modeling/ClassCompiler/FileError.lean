/-! What can be wrong with the path of a file, and what the system says about it. -/

namespace ClassCompiler
set_option autoImplicit false

/-- Why a file cannot be read or written. -/
inductive FileError where
  | notFound
  | denied
  | notADirectory
  | isADirectory
  | nameTooLong
  | notText
  deriving DecidableEq, Repr

namespace FileError

/-- The number by which the system knows the error, if the system is what refuses. -/
def code? : FileError → Option Nat
  | notFound => some 2
  | denied => some 13
  | notADirectory => some 20
  | isADirectory => some 21
  | nameTooLong => some 36
  | notText => none

def description : FileError → String
  | notFound => "No such file or directory"
  | denied => "Permission denied"
  | notADirectory => "Not a directory"
  | isADirectory => "Is a directory"
  | nameTooLong => "File name too long"
  | notText => "stream did not contain valid UTF-8"

/-- The description, with the number of the error after it. -/
def message (error : FileError) : String :=
  match error.code? with
  | some code => error.description ++ " (os error " ++ toString code ++ ")"
  | none => error.description

end FileError
end ClassCompiler
