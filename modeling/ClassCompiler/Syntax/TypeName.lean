/-! Types as a class writes them: a name, and whether the type is an array of it. -/

namespace ClassCompiler
set_option autoImplicit false

structure TypeName where
  name : String
  isArray : Bool
  deriving DecidableEq, Repr, Inhabited

namespace TypeName

def int : TypeName := ⟨"int", false⟩

def intArray : TypeName := ⟨"int", true⟩

def boolean : TypeName := ⟨"boolean", false⟩

def void : TypeName := ⟨"void", false⟩

def stringArray : TypeName := ⟨"String", true⟩

def ofClass (name : String) : TypeName := ⟨name, false⟩

/-- The type of what code outside the class returns. It agrees with every type. -/
def unknown : TypeName := ⟨"unknown", false⟩

def isInt (type : TypeName) : Bool := type.name == "int" && !type.isArray

def isBoolean (type : TypeName) : Bool := type.name == "boolean" && !type.isArray

def isVoid (type : TypeName) : Bool := type.name == "void" && !type.isArray

def isUnknown (type : TypeName) : Bool := type.name == "unknown"

/-- The names of types that are no classes. -/
def isPrimitiveName (name : String) : Bool := name == "int" || name == "boolean" || name == "void"

def isPrimitive (type : TypeName) : Bool := !type.isArray && isPrimitiveName type.name

def isClass (type : TypeName) : Bool :=
  !type.isArray && !isPrimitiveName type.name && !type.isUnknown

def elementType (type : TypeName) : TypeName := ⟨type.name, false⟩

def arrayOf (type : TypeName) : TypeName := ⟨type.name, true⟩

/-- The type as messages show it. -/
def text (type : TypeName) : String := if type.isArray then type.name ++ "[]" else type.name

end TypeName
end ClassCompiler
