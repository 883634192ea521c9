import ClassCompiler.Text.Numeral

/-! The arguments of the command line. Short options may be grouped, the value of an
option may be joined to it or follow it, and after two dashes everything is a file. -/

namespace ClassCompiler.CommandLine
set_option autoImplicit false

/-- What can be done with a file. -/
inductive Verb where
  | compile
  | check
  | symbols
  | tree
  deriving DecidableEq, Repr

def Verb.ofName? : String → Option Verb
  | "compile" => some .compile
  | "check" => some .check
  | "symbols" => some .symbols
  | "tree" => some .tree
  | _ => none

/-- What is to be done, and with which file. -/
inductive Command where
  | compile (input : String) (output : Option String) (optimize : Bool) (registers : Option Int)
  | check (input : String)
  | symbols (input : String)
  | tree (input : String)
  deriving DecidableEq, Repr

/-- What a help text is about: the program, one of its verbs, or the asking for help. -/
inductive Topic where
  | program
  | verb (verb : Verb)
  | help
  deriving DecidableEq, Repr

def Topic.ofName? (name : String) : Option Topic :=
  if name = "help" then some .help else (Verb.ofName? name).map .verb

/-- Why arguments give no command: they are wrong, or ask for a help text or the version. -/
inductive Stop where
  | usage
  | help (topic : Topic)
  | version
  deriving DecidableEq, Repr

/-- The arguments of a verb that have been read. -/
structure Arguments where
  file : Option String := none
  output : Option String := none
  optimize : Bool := false
  registers : Option Int := none

inductive ValueOption where
  | output
  | registers
  deriving DecidableEq, Repr

namespace Arguments

/-- Takes a file; there is only one, and its name is not empty. -/
def withFile (args : Arguments) (file : String) : Except Stop Arguments :=
  if args.file.isSome || file = "" then .error .usage else .ok { args with file := some file }

def withValue (args : Arguments) : ValueOption → String → Except Stop Arguments
  | .output, value =>
    if args.output.isSome || value = "" then .error .usage
    else .ok { args with output := some value }
  | .registers, value =>
    match Text.int32? value with
    | some n =>
      if args.registers.isSome then .error .usage
      else .ok { args with registers := some n.toInt }
    | none => .error .usage

def withOptimize (args : Arguments) : Except Stop Arguments :=
  if args.optimize then .error .usage else .ok { args with optimize := true }

def command (args : Arguments) (verb : Verb) : Except Stop Command :=
  match args.file, verb with
  | none, _ => .error .usage
  | some file, .compile => .ok (.compile file args.output args.optimize args.registers)
  | some file, .check => .ok (.check file)
  | some file, .symbols => .ok (.symbols file)
  | some file, .tree => .ok (.tree file)

end Arguments

/-- The value that is joined to a short option, after an equals sign if there is one. -/
def joinedValue : List Char → String
  | '=' :: value => String.ofList value
  | value => String.ofList value

/-- Reads a group of short options. The last one may still need a value. -/
def readGroup (verb : Verb) (args : Arguments) :
    List Char → Except Stop (Arguments × Option ValueOption)
  | [] => .ok (args, none)
  | 'v' :: rest => readGroup verb args rest
  | 'h' :: _ => .error (.help (.verb verb))
  | option :: rest =>
    if verb ≠ .compile then .error .usage
    else
      match option, rest with
      | 'O', _ => do readGroup verb (← args.withOptimize) rest
      | 'o', [] => .ok (args, some .output)
      | 'r', [] => .ok (args, some .registers)
      | 'o', _ => do return (← args.withValue .output (joinedValue rest), none)
      | 'r', _ => do return (← args.withValue .registers (joinedValue rest), none)
      | _, _ => .error .usage

/-- Reads a long option, given without its dashes. It may still need a value. -/
def readLong (verb : Verb) (args : Arguments) (option : String) :
    Except Stop (Arguments × Option ValueOption) :=
  let name := String.ofList (option.toList.takeWhile (· ≠ '='))
  let value := match option.toList.dropWhile (· ≠ '=') with
    | _ :: value => some (String.ofList value)
    | [] => none
  match name, value, verb with
  | "verbose", none, _ => .ok (args, none)
  | "help", none, _ => .error (.help (.verb verb))
  | "optimize", none, .compile => do return (← args.withOptimize, none)
  | "output", none, .compile => .ok (args, some .output)
  | "registers", none, .compile => .ok (args, some .registers)
  | "output", some value, .compile => do return (← args.withValue .output value, none)
  | "registers", some value, .compile => do return (← args.withValue .registers value, none)
  | _, _, _ => .error .usage

/-- Reads the arguments of a verb, where an option may wait for its value. -/
def readArguments (verb : Verb) (args : Arguments) (pending : Option ValueOption) :
    List String → Except Stop Arguments
  | [] => if pending.isSome then .error .usage else .ok args
  | token :: tokens =>
    match token.toList, pending with
    | ['-', '-'], none => tokens.foldlM Arguments.withFile args
    | '-' :: '-' :: _, none => do
      let (args, pending) ← readLong verb args (String.ofList (token.toList.drop 2))
      readArguments verb args pending tokens
    | '-' :: c :: group, none => do
      let (args, pending) ← readGroup verb args (c :: group)
      readArguments verb args pending tokens
    | '-' :: _ :: _, some _ => .error .usage
    | _, some option => do readArguments verb (← args.withValue option token) none tokens
    | _, none => do readArguments verb (← args.withFile token) none tokens

/-- Reads a group of short options in front of the verb; only one is known that goes on. -/
def readLeadingGroup : List Char → Except Stop Unit
  | [] => .ok ()
  | 'v' :: rest => readLeadingGroup rest
  | 'h' :: _ => .error (.help .program)
  | 'V' :: _ => .error .version
  | _ => .error .usage

/-- The help that is asked for by name: at most one topic. -/
def readHelp : List String → Except Stop Command
  | [] => .error (.help .program)
  | [name] =>
    match Topic.ofName? name with
    | some topic => .error (.help topic)
    | none => .error .usage
  | _ => .error .usage

/-- The command that a list of arguments stands for. -/
def parse : List String → Except Stop Command
  | [] => .error .usage
  | token :: tokens =>
    match token.toList with
    | '-' :: '-' :: _ =>
      if token = "--verbose" then parse tokens
      else if token = "--help" then .error (.help .program)
      else if token = "--version" then .error .version
      else .error .usage
    | '-' :: c :: group => do
      readLeadingGroup (c :: group)
      parse tokens
    | _ =>
      if token = "help" then readHelp tokens
      else
        match Verb.ofName? token with
        | some verb => do (← readArguments verb {} none tokens).command verb
        | none => .error .usage

end ClassCompiler.CommandLine
