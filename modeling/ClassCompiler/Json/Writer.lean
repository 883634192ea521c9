import ClassCompiler.Json.Basic

/-! Writing JSON on several lines: two blanks for each level, one item or member on a
line, and an empty array or object as a pair of brackets. -/

namespace ClassCompiler.Json
set_option autoImplicit false

def hexDigit (n : Nat) : Char :=
  if n < 10 then Char.ofNat ('0'.toNat + n) else Char.ofNat ('a'.toNat + (n - 10))

/-- How one character stands in a string: quotes, backslashes and control characters are
escaped, and everything else stands for itself. -/
def escaped (c : Char) : List Char :=
  match c with
  | '"' => ['\\', '"']
  | '\\' => ['\\', '\\']
  | '\x08' => ['\\', 'b']
  | '\x0c' => ['\\', 'f']
  | '\n' => ['\\', 'n']
  | '\r' => ['\\', 'r']
  | '\t' => ['\\', 't']
  | c =>
    if c.toNat < 0x20 then ['\\', 'u', '0', '0', hexDigit (c.toNat / 16), hexDigit (c.toNat % 16)]
    else [c]

/-- A text as a JSON string. -/
def quote (text : String) : String :=
  String.ofList ('"' :: (text.toList.flatMap escaped ++ ['"']))

def indentation (level : Nat) : String := String.ofList (List.replicate (2 * level) ' ')

mutual

/-- A value whose first line starts at a level. -/
def pretty (level : Nat) : Json → String
  | .null => "null"
  | .bool true => "true"
  | .bool false => "false"
  | .number literal => literal
  | .string text => quote (text.getD "")
  | .array [] => "[]"
  | .array (item :: items) =>
    "[\n" ++ indentation (level + 1) ++ pretty (level + 1) item ++ prettyItems (level + 1) items ++
      "\n" ++ indentation level ++ "]"
  | .object [] => "\x7b\x7d"
  | .object ((name, value) :: members) =>
    "\x7b\n" ++ indentation (level + 1) ++ quote (name.getD "") ++ ": "
      ++ pretty (level + 1) value ++ prettyMembers (level + 1) members
      ++ "\n" ++ indentation level ++ "\x7d"

/-- The items after the first, each after a comma and on a line of its own. -/
def prettyItems (level : Nat) : List Json → String
  | [] => ""
  | item :: items => ",\n" ++ indentation level ++ pretty level item ++ prettyItems level items

/-- The members after the first, each after a comma and on a line of its own. -/
def prettyMembers (level : Nat) : List (Option String × Json) → String
  | [] => ""
  | (name, value) :: members =>
    ",\n" ++ indentation level ++ quote (name.getD "") ++ ": " ++ pretty level value ++
      prettyMembers level members

end

def render (json : Json) : String := pretty 0 json

end ClassCompiler.Json
