/-! Decimal numerals with an optional sign, and the 32-bit integers they denote. -/

namespace ClassCompiler.Text
set_option autoImplicit false

def isDigit (c : Char) : Bool := '0' ≤ c && c ≤ '9'

/-- The number that a list of digits denotes, read from the most significant one. -/
def digitsValue (digits : List Char) : Nat :=
  digits.foldl (fun value digit => 10 * value + (digit.toNat - '0'.toNat)) 0

/-- One or more digits and nothing else. -/
def natural? (chars : List Char) : Option Nat :=
  if !chars.isEmpty && chars.all isDigit then some (digitsValue chars) else none

/-- One or more digits after at most one sign. -/
def integer? (text : String) : Option Int :=
  match text.toList with
  | '-' :: digits => (natural? digits).map fun n => -(n : Int)
  | '+' :: digits => (natural? digits).map fun n => (n : Int)
  | digits => (natural? digits).map fun n => (n : Int)

def fitsInt32 (n : Int) : Bool := -2147483648 ≤ n && n ≤ 2147483647

def fitsInt64 (n : Int) : Bool := -9223372036854775808 ≤ n && n ≤ 9223372036854775807

/-- The 32-bit integer that a numeral denotes, if it denotes one. -/
def int32? (text : String) : Option Int32 :=
  ((integer? text).filter fitsInt32).map Int32.ofInt

/-- The decimal numeral of a 32-bit integer. -/
def ofInt32 (n : Int32) : String := toString n.toInt

end ClassCompiler.Text
