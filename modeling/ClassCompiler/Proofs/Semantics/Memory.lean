import ClassCompiler.Code.Type
import ClassCompiler.Syntax.Operator
import ClassCompiler.Text.Numeral

/-! Data at run time. A method works on the fields of one object and on a heap of arrays
and objects. What other methods do is left to an oracle, which sees every call that was
made before, and may change fields and heap at will. -/

namespace ClassCompiler
set_option autoImplicit false

/-- What a variable, a field or an item of an array holds. -/
inductive Datum where
  | int (value : Int32)
  | bool (value : Bool)
  | null
  | ref (address : Nat)
  deriving DecidableEq, Repr, Inhabited

/-- Why a run comes to no end of its own: a variable is read before it has a value, a
division or an index has no result, an operation gets what it does not work on, or the run
was given too few rounds of a loop. -/
inductive Trap where
  | unset (name : String)
  | divisionByZero
  | outOfRange
  | invalid
  | exhausted
  deriving DecidableEq, Repr

/-- What stands at an address: an array with its items, or an object of a class. -/
inductive Cell where
  | array (items : List Datum)
  | object (name : String)
  deriving DecidableEq, Repr

/-- The fields of the object at work, and the cells of the heap under their addresses. -/
structure Memory where
  fields : String → Datum
  heap : List Cell

namespace Datum

def maxItems : Nat := 2147483647

def isReference : Datum → Bool
  | null | ref _ => true
  | int _ | bool _ => false

end Datum

def BinaryOperator.onInts (op : BinaryOperator) (a b : Int32) : Except Trap Datum :=
  match op with
  | .lt => .ok (.bool (a < b))
  | .gt => .ok (.bool (b < a))
  | .le => .ok (.bool (a ≤ b))
  | .ge => .ok (.bool (b ≤ a))
  | .eq => .ok (.bool (a = b))
  | .ne => .ok (.bool (a ≠ b))
  | .div => match BinaryOperator.div.fold? a b with
    | some value => .ok (.int value)
    | none => .error .divisionByZero
  | op => match op.fold? a b with
    | some value => .ok (.int value)
    | none => .error .invalid

def BinaryOperator.onBools (op : BinaryOperator) (a b : Bool) : Except Trap Datum :=
  match op with
  | .and => .ok (.bool (a && b))
  | .or => .ok (.bool (a || b))
  | .eq => .ok (.bool (a = b))
  | .ne => .ok (.bool (a ≠ b))
  | _ => .error .invalid

/-- The value of an operator on two operands, both of them evaluated. References are only
compared. -/
def BinaryOperator.apply (op : BinaryOperator) (lhs rhs : Datum) : Except Trap Datum :=
  match lhs, rhs with
  | .int a, .int b => op.onInts a b
  | .bool a, .bool b => op.onBools a b
  | lhs, rhs =>
    if lhs.isReference && rhs.isReference then
      match op with
      | .eq => .ok (.bool (lhs = rhs))
      | .ne => .ok (.bool (lhs ≠ rhs))
      | _ => .error .invalid
    else .error .invalid

def UnaryOperator.apply (op : UnaryOperator) (operand : Datum) : Except Trap Datum :=
  match op, operand with
  | .not, .bool a => .ok (.bool !a)
  | .neg, .int a => .ok (.int (-a))
  | _, _ => .error .invalid

def Datum.ofNumeral (text : String) : Except Trap Datum :=
  match Text.int32? text with
  | some value => .ok (.int value)
  | none => .error .invalid

/-- What stands in the items of a new array, and what a method returns whose body comes to
its end. -/
def CodeType.defaultDatum : CodeType → Datum
  | .int => .int 0
  | .bool => .bool false
  | .void | .str | .object _ | .array _ => .null

def CodeType.fallback? (type : CodeType) : Option Datum :=
  if type.isVoid then none else some type.defaultDatum

namespace Memory

def items (memory : Memory) : Datum → Except Trap (List Datum)
  | .ref address =>
    match memory.heap[address]? with
    | some (.array items) => .ok items
    | _ => .error .invalid
  | _ => .error .invalid

/-- The place that an index denotes among a number of items. -/
def position (count : Nat) : Datum → Except Trap Nat
  | .int index =>
    if 0 ≤ index.toInt ∧ index.toInt.toNat < count then .ok index.toInt.toNat
    else .error .outOfRange
  | _ => .error .invalid

def item (memory : Memory) (array index : Datum) : Except Trap Datum := do
  let items ← memory.items array
  let position ← position items.length index
  return items.getD position .null

def setCell (memory : Memory) (array : Datum) (cell : Cell) : Memory :=
  match array with
  | .ref address => { memory with heap := memory.heap.set address cell }
  | _ => memory

def setItem (memory : Memory) (array index value : Datum) : Except Trap Memory := do
  let items ← memory.items array
  let position ← position items.length index
  return memory.setCell array (.array (items.set position value))

def arrayLength (memory : Memory) (array : Datum) : Except Trap Datum := do
  let items ← memory.items array
  return .int (.ofNat items.length)

def allocate (memory : Memory) (cell : Cell) : Memory × Datum :=
  ({ memory with heap := memory.heap ++ [cell] }, .ref memory.heap.length)

def newArray (memory : Memory) (size fill : Datum) : Except Trap (Memory × Datum) :=
  match size with
  | .int size =>
    if 0 ≤ size.toInt then .ok (memory.allocate (.array (List.replicate size.toInt.toNat fill)))
    else .error .invalid
  | _ => .error .invalid

def setField (memory : Memory) (name : String) (value : Datum) : Memory :=
  { memory with fields := fun other => if other = name then value else memory.fields other }

end Memory

/-- Whose method is called: that of a class, that of a value of some declared type, or that of an
object which was just made. -/
inductive Receiver where
  | type (name : String)
  | value (type : Option CodeType) (datum : Datum)
  | created (object : Datum)
  deriving DecidableEq, Repr

/-- Methods are called on references only. -/
def Receiver.ofValue (type : Option CodeType) (datum : Datum) : Except Trap Receiver :=
  if datum.isReference then .ok (.value type datum) else .error .invalid

structure Invoked where
  receiver : Receiver
  method : String
  args : List Datum
  deriving DecidableEq, Repr

/-- The name under which constructors are called. -/
def Invoked.construct (object : Datum) : Invoked := ⟨.created object, "<init>", []⟩

/-- A call, and the memory when it was made. -/
structure CallEvent where
  invoked : Invoked
  memory : Memory

inductive Event where
  | call (event : CallEvent)
  | fieldWrite (name : String) (value : Datum)
  | itemWrite (array index value : Datum)

def Event.call? : Event → Option CallEvent
  | call event => some event
  | fieldWrite .. | itemWrite .. => none

/-- What answers calls: from all the calls made before, the present one and the memory, the
memory afterwards and the result. The result of a void method is not looked at. -/
abbrev Oracle := List CallEvent → Invoked → Memory → Memory × Datum

/-- The memory, and what has been seen so far. -/
structure World where
  memory : Memory
  trace : List Event := []

namespace World

def calls (world : World) : List CallEvent := world.trace.filterMap Event.call?

def invoke (world : World) (oracle : Oracle) (invoked : Invoked) : World × Datum :=
  let (memory, result) := oracle world.calls invoked world.memory
  (⟨memory, world.trace ++ [.call ⟨invoked, world.memory⟩]⟩, result)

def putField (world : World) (name : String) (value : Datum) : World :=
  ⟨world.memory.setField name value, world.trace ++ [.fieldWrite name value]⟩

def putItem (world : World) (array index value : Datum) : Except Trap World := do
  let memory ← world.memory.setItem array index value
  return ⟨memory, world.trace ++ [.itemWrite array index value]⟩

end World
end ClassCompiler
