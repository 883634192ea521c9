import ClassCompiler.Json.Basic

/-! Reading JSON text. The grammar is strict: no comments, no comma before a closing
bracket, no leading zeros, no raw control characters in strings, and nothing but blanks
after the value. -/

namespace ClassCompiler.Json
set_option autoImplicit false

/-- The four characters that may stand between tokens. -/
def isSpace (c : Char) : Bool := c == ' ' || c == '\t' || c == '\n' || c == '\r'

def skipSpace (chars : List Char) : List Char := chars.dropWhile isSpace

/-- The text after a word that it has to start with. -/
def expect? : List Char → List Char → Option (List Char)
  | [], rest => some rest
  | c :: word, d :: rest => if c = d then expect? word rest else none
  | _ :: _, [] => none

/-- One or more digits and the text after them. -/
def digits? (chars : List Char) : Option (List Char × List Char) :=
  match chars.span Text.isDigit with
  | ([], _) => none
  | (digits, rest) => some (digits, rest)

/-- The digits before the point: a zero alone, or digits that do not start with zero. -/
def whole? : List Char → Option (List Char × List Char)
  | '0' :: rest => some (['0'], rest)
  | chars => digits? chars

/-- The point and the digits after it, if there is a point. -/
def fraction? : List Char → Option (List Char × List Char)
  | '.' :: rest => (digits? rest).map fun (digits, rest) => ('.' :: digits, rest)
  | chars => some ([], chars)

/-- The exponent, if there is one. -/
def exponent? : List Char → Option (List Char × List Char)
  | c :: rest =>
    if c = 'e' || c = 'E' then
      match rest with
      | '+' :: rest => (digits? rest).map fun (digits, rest) => (c :: '+' :: digits, rest)
      | '-' :: rest => (digits? rest).map fun (digits, rest) => (c :: '-' :: digits, rest)
      | rest => (digits? rest).map fun (digits, rest) => (c :: digits, rest)
    else some ([], c :: rest)
  | [] => some ([], [])

/-- A number literal without its sign. -/
def magnitude? (chars : List Char) : Option (List Char × List Char) := do
  let (whole, rest) ← whole? chars
  let (fraction, rest) ← fraction? rest
  let (exponent, rest) ← exponent? rest
  return (whole ++ fraction ++ exponent, rest)

def number? : List Char → Option (List Char × List Char)
  | '-' :: rest => (magnitude? rest).map fun (literal, rest) => ('-' :: literal, rest)
  | chars => magnitude? chars

/-- What a string holds at one place: a character, or the number of a four-digit escape. -/
inductive Piece where
  | plain (c : Char)
  | unit (code : Nat)

def hexValue? (c : Char) : Option Nat :=
  if '0' ≤ c && c ≤ '9' then some (c.toNat - '0'.toNat)
  else if 'a' ≤ c && c ≤ 'f' then some (c.toNat - 'a'.toNat + 10)
  else if 'A' ≤ c && c ≤ 'F' then some (c.toNat - 'A'.toNat + 10)
  else none

def hexUnit? (a b c d : Char) : Option Nat := do
  return (((← hexValue? a) * 16 + (← hexValue? b)) * 16 + (← hexValue? c)) * 16 + (← hexValue? d)

def escapeChar? : Char → Option Char
  | '"' => some '"'
  | '\\' => some '\\'
  | '/' => some '/'
  | 'b' => some '\x08'
  | 'f' => some '\x0c'
  | 'n' => some '\n'
  | 'r' => some '\r'
  | 't' => some '\t'
  | _ => none

/-- The pieces of a string after its opening quote, in front of those already read in
reverse order, and the text after its closing quote. -/
def pieces? (read : List Piece) : List Char → Option (List Piece × List Char)
  | [] => none
  | '"' :: rest => some (read.reverse, rest)
  | '\\' :: 'u' :: a :: b :: c :: d :: rest =>
    match hexUnit? a b c d with
    | some code => pieces? (.unit code :: read) rest
    | none => none
  | '\\' :: c :: rest =>
    match escapeChar? c with
    | some c => pieces? (.plain c :: read) rest
    | none => none
  | c :: rest => if c.toNat < 0x20 then none else pieces? (.plain c :: read) rest

def isHighSurrogate (code : Nat) : Bool := 0xD800 ≤ code && code ≤ 0xDBFF

def isLowSurrogate (code : Nat) : Bool := 0xDC00 ≤ code && code ≤ 0xDFFF

/-- The characters that pieces denote; two escapes that form a surrogate pair denote one
character, and a surrogate outside such a pair denotes none. -/
def characters? : List Piece → Option (List Char)
  | [] => some []
  | .plain c :: rest => (characters? rest).map (c :: ·)
  | .unit high :: rest =>
    if isHighSurrogate high then
      match rest with
      | .unit low :: rest =>
        if isLowSurrogate low then
          let point := 0x10000 + (high - 0xD800) * 0x400 + (low - 0xDC00)
          (characters? rest).map (Char.ofNat point :: ·)
        else none
      | _ => none
    else if isLowSurrogate high then none
    else (characters? rest).map (Char.ofNat high :: ·)

def string? (chars : List Char) : Option (Option String × List Char) := do
  let (pieces, rest) ← pieces? [] chars
  return ((characters? pieces).map String.ofList, rest)

def name? (chars : List Char) : Option (Option String × List Char) := do
  let rest ← expect? ['"'] (skipSpace chars)
  let (name, rest) ← string? rest
  let rest ← expect? [':'] (skipSpace rest)
  return (name, rest)

mutual

/-- A value and the text after it. Every step into a value, an item or a member takes one
unit of fuel. -/
def value? : Nat → List Char → Option (Json × List Char)
  | 0, _ => none
  | fuel + 1, chars =>
    match skipSpace chars with
    | '"' :: rest => (string? rest).map fun (text, rest) => (.string text, rest)
    | '[' :: rest =>
      match skipSpace rest with
      | ']' :: rest => some (.array [], rest)
      | rest => items? fuel [] rest
    | '\x7b' :: rest =>
      match skipSpace rest with
      | '\x7d' :: rest => some (.object [], rest)
      | rest => members? fuel [] rest
    | 'n' :: rest => (expect? ['u', 'l', 'l'] rest).map (Json.null, ·)
    | 't' :: rest => (expect? ['r', 'u', 'e'] rest).map (Json.bool true, ·)
    | 'f' :: rest => (expect? ['a', 'l', 's', 'e'] rest).map (Json.bool false, ·)
    | chars => (number? chars).map fun (literal, rest) => (.number (String.ofList literal), rest)

/-- The items of an array up to its closing bracket, after those already read in reverse
order. -/
def items? : Nat → List Json → List Char → Option (Json × List Char)
  | 0, _, _ => none
  | fuel + 1, read, chars => do
    let (item, rest) ← value? fuel chars
    match skipSpace rest with
    | ',' :: rest => items? fuel (item :: read) rest
    | ']' :: rest => return (.array (item :: read).reverse, rest)
    | _ => none

/-- The members of an object up to its closing brace, after those already read in reverse
order. -/
def members? : Nat → List (Option String × Json) → List Char → Option (Json × List Char)
  | 0, _, _ => none
  | fuel + 1, read, chars => do
    let (name, rest) ← name? chars
    let (value, rest) ← value? fuel rest
    match skipSpace rest with
    | ',' :: rest => members? fuel ((name, value) :: read) rest
    | '\x7d' :: rest => return (.object ((name, value) :: read).reverse, rest)
    | _ => none

end

/-- The value that a whole text spells. Two units of fuel for each character are enough:
of two nested steps at least one takes a character. -/
def parse? (text : String) : Option Json := do
  let chars := text.toList
  let (value, rest) ← value? (2 * chars.length + 2) chars
  if (skipSpace rest).isEmpty then some value else none

end ClassCompiler.Json
