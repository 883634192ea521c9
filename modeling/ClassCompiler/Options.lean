import ClassCompiler.Text.Characters
import ClassCompiler.Text.NameMap
import ClassCompiler.Text.Numeral

/-! Compilation options, and how they are read from a map of texts. -/

namespace ClassCompiler
set_option autoImplicit false

/-- What a compilation does apart from checking and lowering. A negative register budget
leaves registers as they are, and zero sets no limit. -/
structure Options where
  optimize : Bool := false
  registers : Int := -1
  rounds : Nat := 5
  debug : Bool := false
  deriving DecidableEq, Repr

/-- An option whose text is of the wrong form. -/
inductive OptionError where
  | invalidBool (key value : String)
  | invalidInt (key value : String)
  deriving DecidableEq, Repr

def OptionError.message : OptionError → String
  | .invalidBool key value => "option '" ++ key ++ "' expects a boolean, found '" ++ value ++ "'"
  | .invalidInt key value => "option '" ++ key ++ "' expects an integer, found '" ++ value ++ "'"

namespace Options

/-- Whether registers are allocated at all. -/
def allocates (options : Options) : Bool := 0 ≤ options.registers

/-- The truth value of an option's text; white space around it does not count, and the
empty text is false. -/
def readBool (key value : String) : Except OptionError Bool :=
  let trimmed := Text.trim value
  if trimmed = "true" || trimmed = "1" then .ok true
  else if trimmed = "false" || trimmed = "0" || trimmed = "" then .ok false
  else .error (.invalidBool key trimmed)

/-- The integer of an option's text; white space around it does not count. -/
def readInt (key value : String) : Except OptionError Int :=
  match Text.int32? (Text.trim value) with
  | some n => .ok n.toInt
  | none => .error (.invalidInt key value)

/-- Reads one option, or gives a default where it is missing. -/
def readOr {α : Type} (map : NameMap String) (key : String)
    (read : String → String → Except OptionError α) (default : α) : Except OptionError α :=
  match map.get? key with
  | some value => read key value
  | none => .ok default

/-- The options of a map. Missing ones have their defaults, and others are passed over. -/
def ofMap (map : NameMap String) : Except OptionError Options := do
  let defaults : Options := {}
  let optimize ← readOr map "optimize" readBool defaults.optimize
  let registers ← readOr map "registerAllocation" readInt defaults.registers
  let debug ← readOr map "debug" readBool defaults.debug
  return { defaults with optimize, registers, debug }

end Options
end ClassCompiler
