import ClassCompiler.Code.Unit
import ClassCompiler.Text.NameSet

/-! Liveness of variables. A variable is live before an instruction when some path from
there reads it before it writes it. -/

namespace ClassCompiler
set_option autoImplicit false

/-- The control flow and the variables of every instruction of a method. -/
structure Flow where
  successors : List (List Nat)
  defs : List NameSet
  uses : List NameSet

namespace Flow

/-- The place of a label; of several with one name the last counts. -/
def labelIndex? (code : List Instruction) (name : String) : Option Nat :=
  (code.zipIdx.filter fun (instruction, _) => instruction = .label name).getLast?.map (·.2)

/-- The next place, unless it is past the end. -/
def next? (code : List Instruction) (index : Nat) : Option Nat :=
  if index + 1 < code.length then some (index + 1) else none

/-- The places where control may go after an instruction. A jump to a missing label goes
nowhere. -/
def successorsOf (code : List Instruction) (index : Nat) : Instruction → List Nat
  | .ret _ => []
  | .goto target => (labelIndex? code target).toList
  | .branch _ target =>
    let jump := (labelIndex? code target).toList
    jump ++ (next? code index).toList.filter fun fall => !jump.contains fall
  | _ => (next? code index).toList

/-- The flow of a list of instructions. -/
def ofCode (code : List Instruction) : Flow where
  successors := code.zipIdx.map fun (instruction, index) => successorsOf code index instruction
  defs := code.map fun instruction => .ofList instruction.def?.toList
  uses := code.map fun instruction => .ofList instruction.uses

def length (flow : Flow) : Nat := flow.successors.length

/-- What is live after an instruction, given what is live before each. -/
def liveOut (flow : Flow) (liveIn : List NameSet) (index : Nat) : NameSet :=
  (flow.successors.getD index []).foldl
    (fun live successor => live.union (liveIn.getD successor {})) {}

/-- What is live before an instruction by its own reads and writes, given what is live
before each. -/
def transfer (flow : Flow) (liveIn : List NameSet) (index : Nat) : NameSet :=
  (flow.uses.getD index {}).union ((flow.liveOut liveIn index).diff (flow.defs.getD index {}))

def relax (flow : Flow) (liveIn : List NameSet) (index : Nat) : List NameSet :=
  liveIn.set index (flow.transfer liveIn index)

def sweep (flow : Flow) (liveIn : List NameSet) : List NameSet :=
  (List.range flow.length).reverse.foldl flow.relax liveIn

/-- Sweeps until nothing changes, a number of times at most. -/
def settle (flow : Flow) : Nat → List NameSet → List NameSet
  | 0, liveIn => liveIn
  | fuel + 1, liveIn =>
    let swept := flow.sweep liveIn
    if swept = liveIn then liveIn else flow.settle fuel swept

/-- The number of variables read anywhere, each counted for every instruction that reads
it. -/
def useCount (flow : Flow) : Nat := flow.uses.foldr (fun use count => use.size + count) 0

/-- What is live before each instruction. Every sweep but the last adds a variable that is
read somewhere to the set of some instruction, which bounds their number. -/
def liveIn (flow : Flow) : List NameSet :=
  flow.settle (flow.length * flow.useCount + 1) (List.replicate flow.length {})

end Flow

/-- The flow of a method, and what is live before and after each instruction. -/
structure Liveness where
  flow : Flow
  liveIn : List NameSet
  liveOut : List NameSet

def Liveness.analyze (method : Method) : Liveness :=
  let flow := Flow.ofCode method.code
  let liveIn := flow.liveIn
  { flow, liveIn, liveOut := (List.range flow.length).map (flow.liveOut liveIn) }

end ClassCompiler
