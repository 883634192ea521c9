/-! Binary and unary operators, their families, and arithmetic on literals in 32-bit
words. -/

namespace ClassCompiler
set_option autoImplicit false

/-- Operators that share a rule for the types of operands and result. -/
inductive OperatorFamily where
  | arithmetic
  | relational
  | equality
  | logical
  | compoundAssign
  deriving DecidableEq, Repr

inductive BinaryOperator where
  | add | sub | mul | div
  | lt | gt | le | ge
  | eq | ne
  | and | or
  | addAssign | subAssign | mulAssign | divAssign
  deriving DecidableEq, Repr

namespace BinaryOperator

def symbol : BinaryOperator → String
  | add => "+"
  | sub => "-"
  | mul => "*"
  | div => "/"
  | lt => "<"
  | gt => ">"
  | le => "<="
  | ge => ">="
  | eq => "=="
  | ne => "!="
  | and => "&&"
  | or => "||"
  | addAssign => "+="
  | subAssign => "-="
  | mulAssign => "*="
  | divAssign => "/="

def all : List BinaryOperator :=
  [add, sub, mul, div, lt, gt, le, ge, eq, ne, and, or, addAssign, subAssign, mulAssign, divAssign]

def ofSymbol? (symbol : String) : Option BinaryOperator := all.find? fun op => op.symbol == symbol

@[simp] theorem ofSymbol?_symbol (op : BinaryOperator) : ofSymbol? op.symbol = some op := by
  cases op <;> decide

def family : BinaryOperator → OperatorFamily
  | add | sub | mul | div => .arithmetic
  | lt | gt | le | ge => .relational
  | eq | ne => .equality
  | and | or => .logical
  | addAssign | subAssign | mulAssign | divAssign => .compoundAssign

/-- The operation that a compound assignment performs before it stores. -/
def compoundBase? : BinaryOperator → Option BinaryOperator
  | addAssign => some add
  | subAssign => some sub
  | mulAssign => some mul
  | divAssign => some div
  | _ => none

/-- The value of an arithmetic operator on two words. Results wrap around and division
goes toward zero; a division by zero has no value. -/
def fold? (op : BinaryOperator) (lhs rhs : Int32) : Option Int32 :=
  match op with
  | add => some (lhs + rhs)
  | sub => some (lhs - rhs)
  | mul => some (lhs * rhs)
  | div => if rhs = 0 then none else some (lhs / rhs)
  | _ => none

end BinaryOperator

inductive UnaryOperator where
  | not
  | neg
  deriving DecidableEq, Repr

namespace UnaryOperator

def symbol : UnaryOperator → String
  | not => "!"
  | neg => "-"

def ofSymbol? : String → Option UnaryOperator
  | "!" => some not
  | "-" => some neg
  | _ => none

@[simp] theorem ofSymbol?_symbol (op : UnaryOperator) : ofSymbol? op.symbol = some op := by
  cases op <;> rfl

end UnaryOperator
end ClassCompiler
