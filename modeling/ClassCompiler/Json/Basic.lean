import ClassCompiler.Text.Numeral

/-! JSON values as a text spells them: numbers keep their literal, members keep their
order and their repetitions. -/

namespace ClassCompiler
set_option autoImplicit false

/-- A JSON value. A string is `none` when one of its escapes is an unpaired surrogate, so
that no text corresponds to it. -/
inductive Json where
  | null
  | bool (value : Bool)
  | number (literal : String)
  | string (text : Option String)
  | array (items : List Json)
  | object (members : List (Option String × Json))

namespace Json

instance : Inhabited Json := ⟨null⟩

def text (value : String) : Json := .string (some value)

def nat (value : Nat) : Json := .number (toString value)

def members (name : String) : Json → List Json
  | .object members => (members.filter fun member => member.1 == some name).map (·.2)
  | _ => []

def get? (json : Json) (name : String) : Option Json := (json.members name).getLast?

/-- The integer that a literal spells without fraction and exponent. The literal of minus
zero spells none: it stands for a floating-point number. -/
def integer? : Json → Option Int
  | .number literal =>
    match literal.toList with
    | ['-', '0'] => none
    | '-' :: digits => (Text.natural? digits).map fun n => -(n : Int)
    | digits => (Text.natural? digits).map fun n => (n : Int)
  | _ => none

end Json
end ClassCompiler
