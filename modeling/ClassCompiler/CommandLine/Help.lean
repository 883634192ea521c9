import ClassCompiler.CommandLine.Run

/-! The texts that the command line shows about itself. -/

namespace ClassCompiler.CommandLine
set_option autoImplicit false

def joinLines (lines : List String) : String := String.join (lines.map (· ++ "\n"))

def versionText : String := "jmmc 0.1.0\n"

def programHelp : String := joinLines [
  "Java-- semantic analyzer and OLLIR generator",
  "",
  "Usage: jmmc [OPTIONS] <COMMAND>",
  "",
  "Commands:",
  "  compile  Analyze a JSON AST and print its OLLIR",
  "  check    Run the semantic analyzer only",
  "  symbols  Print the symbol table",
  "  tree     Print the AST",
  "  help     Print this message or the help of the given subcommand(s)",
  "",
  "Options:",
  "  -v, --verbose...  Verbose output (repeat for more)",
  "  -h, --help        Print help",
  "  -V, --version     Print version"]

def compileHelp : String := joinLines [
  "Analyze a JSON AST and print its OLLIR",
  "",
  "Usage: jmmc compile [OPTIONS] <FILE>",
  "",
  "Arguments:",
  "  <FILE>  Input AST in JSON form",
  "",
  "Options:",
  "  -o, --output <FILE>  Write OLLIR to this file instead of stdout",
  "  -v, --verbose...     Verbose output (repeat for more)",
  "  -O, --optimize       Fold and propagate constants before lowering",
  "  -r, --registers <N>  Register budget; 0 uses as many as needed",
  "  -h, --help           Print help"]

def fileHelp (about name : String) : String := joinLines [
  about,
  "",
  "Usage: jmmc " ++ name ++ " [OPTIONS] <FILE>",
  "",
  "Arguments:",
  "  <FILE>  ",
  "",
  "Options:",
  "  -v, --verbose...  Verbose output (repeat for more)",
  "  -h, --help        Print help"]

def helpHelp : String := joinLines [
  "Print this message or the help of the given subcommand(s)",
  "",
  "Usage: jmmc help [COMMAND]...",
  "",
  "Arguments:",
  "  [COMMAND]...  Print help for the subcommand(s)"]

def helpText : Topic → String
  | .program => programHelp
  | .verb .compile => compileHelp
  | .verb .check => fileHelp "Run the semantic analyzer only" "check"
  | .verb .symbols => fileHelp "Print the symbol table" "symbols"
  | .verb .tree => fileHelp "Print the AST" "tree"
  | .help => helpHelp

def Stop.outcome : Stop → Outcome
  | .usage =>
    { code := 2
      stderr := joinLines ["error: invalid arguments", "", "For more information, try '--help'."] }
  | .help topic => { stdout := helpText topic }
  | .version => { stdout := versionText }

end ClassCompiler.CommandLine
