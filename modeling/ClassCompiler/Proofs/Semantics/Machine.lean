import ClassCompiler.Proofs.Semantics.Memory
import ClassCompiler.Registers.Liveness
import Mathlib.Logic.Relation

/-! The meaning of three-address code. A machine runs a list of instructions from a place in
it; where the variables of a method are kept is open, so that the same machine runs with
variables under their names and with variables in registers. -/

namespace ClassCompiler
set_option autoImplicit false

/-- The values of variables, as far as they have one. -/
abbrev Look := String → Option Datum

/-- What an instruction reads: the variables and the object at work. -/
structure Operands where
  look : Look
  self : Option Datum

namespace Operands

def read (operands : Operands) (name : String) : Except Trap Datum :=
  match operands.look name with
  | some value => .ok value
  | none => .error (.unset name)

def readSelf (operands : Operands) : Except Trap Datum :=
  match operands.self with
  | some object => .ok object
  | none => .error (.unset "this")

end Operands

def CodeType.denote (type : CodeType) (text : String) : Except Trap Datum :=
  match type with
  | .int => Datum.ofNumeral text
  | .bool => if text = "1" then .ok (.bool true) else if text = "0" then .ok (.bool false)
    else .error .invalid
  | _ => if text = "null" then .ok .null else .error .invalid

def Element.eval (operands : Operands) (memory : Memory) : Element → Except Trap Datum
  | .literal text type => type.denote text
  | .operand name _ => operands.read name
  | .arrayOperand name index _ => do
    let array ← operands.read name
    let index ← index.eval operands memory
    memory.item array index
  | .self _ => operands.readSelf

def Invocation.eval (operands : Operands) (memory : Memory) : Invocation → Except Trap Receiver
  | .static name => .ok (.type name)
  | .virtual target => do Receiver.ofValue (some target.type) (← target.eval operands memory)
  | .special target => Receiver.created <$> target.eval operands memory

def Call.eval (operands : Operands) (memory : Memory) (call : Call) : Except Trap Invoked := do
  let receiver ← call.invocation.eval operands memory
  let args ← call.args.mapM (Element.eval operands memory)
  return ⟨receiver, call.method, args⟩

def Operands.owner (operands : Operands) (memory : Memory) (object : Element) :
    Except Trap Unit := do
  let object ← object.eval operands memory
  if operands.self = some object then return () else throw .invalid

def Rhs.eval (oracle : Oracle) (operands : Operands) (world : World) :
    Rhs → Except Trap (Datum × World)
  | .single element => do return (← element.eval operands world.memory, world)
  | .binary op lhs rhs _ => do
    let lhs ← lhs.eval operands world.memory
    let rhs ← rhs.eval operands world.memory
    return (← op.apply lhs rhs, world)
  | .unary op operand _ => do
    return (← op.apply (← operand.eval operands world.memory), world)
  | .call made => do
    let (world, result) := world.invoke oracle (← made.eval operands world.memory)
    return (result, world)
  | .getField object field _ => do
    operands.owner world.memory object
    return (world.memory.fields field, world)
  | .arrayLength array => do
    return (← world.memory.arrayLength (← array.eval operands world.memory), world)
  | .newObject name =>
    let (memory, object) := world.memory.allocate (.object name)
    .ok (object, { world with memory })
  | .newArray size type => do
    let size ← size.eval operands world.memory
    let (memory, array) ← world.memory.newArray size type.defaultDatum
    return (array, { world with memory })

/-- Where control goes after an instruction. -/
inductive Jump where
  | next
  | to (label : String)
  | out (value : Option Datum)

/-- What an instruction does: it may give a variable a value, it changes the world, and
control goes on. -/
structure Effect where
  write : Option (String × Datum) := none
  world : World
  jump : Jump := .next

/-- What an instruction does where its operands have certain values. -/
def Instruction.effect (oracle : Oracle) (operands : Operands) (world : World) :
    Instruction → Except Trap Effect
  | .assign (.operand name _) rhs => do
    let (value, world) ← rhs.eval oracle operands world
    return { write := some (name, value), world }
  | .assign (.arrayOperand name index _) rhs => do
    let array ← operands.read name
    let index ← index.eval operands world.memory
    let (value, world) ← rhs.eval oracle operands world
    return { world := ← world.putItem array index value }
  | .assign _ _ => .error .invalid
  | .call made => do
    return { world := (world.invoke oracle (← made.eval operands world.memory)).1 }
  | .putField object field value => do
    operands.owner world.memory object
    let value ← value.eval operands world.memory
    return { world := world.putField field value }
  | .goto target => .ok { world, jump := .to target }
  | .branch condition target => do
    match ← condition.eval oracle operands world with
    | (.bool true, world) => return { world, jump := .to target }
    | (.bool false, world) => return { world }
    | _ => throw .invalid
  | .label _ => .ok { world }
  | .ret none => .ok { world, jump := .out none }
  | .ret (some value) => do
    return { world, jump := .out (some (← value.eval operands world.memory)) }

/-- A way to keep the variables of a method. -/
structure Storage (ρ : Type) where
  operands : ρ → Operands
  write : ρ → String → Datum → ρ

structure Config (ρ : Type) where
  pc : Nat
  cells : ρ
  world : World

/-- How far a machine has come. -/
inductive Progress (ρ : Type) where
  | running (config : Config ρ)
  | returned (value : Option Datum) (config : Config ρ)
  | trapped (trap : Trap) (config : Config ρ)

namespace Storage
variable {ρ : Type} (storage : Storage ρ) (oracle : Oracle) (code : List Instruction)

def apply (cells : ρ) : Option (String × Datum) → ρ
  | some (name, value) => storage.write cells name value
  | none => cells

def step (config : Config ρ) : Progress ρ :=
  match code[config.pc]? with
  | none => .trapped .invalid config
  | some instruction =>
    match instruction.effect oracle (storage.operands config.cells) config.world with
    | .error trap => .trapped trap config
    | .ok effect =>
      let cells := storage.apply config.cells effect.write
      match effect.jump with
      | .next => .running ⟨config.pc + 1, cells, effect.world⟩
      | .to label =>
        match Flow.labelIndex? code label with
        | some target => .running ⟨target, cells, effect.world⟩
        | none => .trapped .invalid config
      | .out value => .returned value ⟨config.pc, cells, effect.world⟩

def run : Nat → Config ρ → Progress ρ
  | 0, config => .running config
  | steps + 1, config =>
    match storage.step oracle code config with
    | .running config => run steps config
    | progress => progress

def Steps (a b : Config ρ) : Prop := storage.step oracle code a = .running b

abbrev Reaches : Config ρ → Config ρ → Prop := Relation.ReflTransGen (storage.Steps oracle code)

variable {storage oracle code}

/-- A machine that reaches a configuration from which it returns has run. -/
theorem run_of_reaches {a b : Config ρ} {value : Option Datum} {c : Config ρ}
    (h : storage.Reaches oracle code a b) (last : storage.step oracle code b = .returned value c) :
    ∃ steps, storage.run oracle code steps a = .returned value c := by
  induction h using Relation.ReflTransGen.head_induction_on with
  | refl => exact ⟨1, by simp [run, last]⟩
  | @head a d first _ ih =>
    obtain ⟨steps, hrun⟩ := ih
    refine ⟨steps + 1, ?_⟩
    rw [Steps] at first
    simp [run, first, hrun]

end Storage

/-- The variables of a method under their names, and the object at work. -/
structure Activation where
  self : Option Datum
  vars : Look

/-- Variables are kept under their names. -/
def byName : Storage Activation where
  operands cells := ⟨cells.vars, cells.self⟩
  write cells name value :=
    { cells with vars := fun other => if other = name then some value else cells.vars other }

end ClassCompiler
