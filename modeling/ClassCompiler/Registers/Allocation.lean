import ClassCompiler.Registers.Interference
import ClassCompiler.Report

/-! Allocation of registers to the locals of a method by colouring their interference
graph. The object, the parameters and the fields keep what they have. Register numbers have 32 bits,
and an addition that leaves their range wraps around. -/

namespace ClassCompiler
set_option autoImplicit false

/-- A method that does not fit into the registers. -/
structure AllocationError where
  method : String
  budget : Nat
  required : Nat
  deriving DecidableEq, Repr

def AllocationError.message (error : AllocationError) : String :=
  "method '" ++ error.method ++ "' needs at least " ++ toString error.required
    ++ " registers but only " ++ toString error.budget ++ " are available"

/-- The registers that were given to the variables of a method. -/
structure Allocation where
  method : String
  assignments : NameMap Int := {}
  deriving DecidableEq

def Allocation.registersUsed (allocation : Allocation) : Nat :=
  allocation.assignments.values.eraseDups.length

namespace InterferenceGraph

/-- The first node that has fewer neighbours than a limit; without a limit the first
node. -/
def candidate? (graph : InterferenceGraph) (limit : Nat) : Option String :=
  graph.nodes.find? fun name => limit = 0 || graph.degree name < limit

def maxDegree (graph : InterferenceGraph) : Nat :=
  (graph.nodes.map graph.degree).foldl max 0

/-- Removes nodes with fewer neighbours than a limit, a number of them at most, and gives
them in the order of their removal. A graph that has no such node gives one more than its
greatest number of neighbours. -/
def simplifyFor : Nat → InterferenceGraph → Nat → Except Nat (List String)
  | 0, _, _ => .ok []
  | count + 1, graph, limit =>
    if graph.isEmpty then .ok []
    else
      match graph.candidate? limit with
      | some name => return name :: (← simplifyFor count (graph.remove name) limit)
      | none => .error (graph.maxDegree + 1)

/-- Removes all nodes of a graph in an order in which each has fewer neighbours than a
limit when its turn comes. -/
def simplify (graph : InterferenceGraph) (limit : Nat) : Except Nat (List String) :=
  simplifyFor graph.size graph limit

end InterferenceGraph

namespace Registers

/-- The register number that stands for an integer. -/
def wrap (register : Int) : Int := (Int32.ofInt register).toInt

/-- The register that is tried after a number of others, from a base on. After all 32-bit numbers,
where a search would never end, come greater ones. -/
def tried (base : Int) (count : Nat) : Int :=
  if count < 4294967296 then wrap (base + count) else count

/-- The first register, from a base on, that is not to be avoided, after a number of others have
been tried; a number of steps are tried at most. -/
def firstFree (avoid : List Int) (base : Int) : Nat → Nat → Int
  | 0, count => tried base count
  | steps + 1, count =>
    if tried base count ∈ avoid then firstFree avoid base steps (count + 1) else tried base count

/-- Gives a variable the lowest register, from a base on, that no neighbour has and that
is not reserved. -/
def assign (graph : InterferenceGraph) (base : Int) (reserved : List Int)
    (colours : NameMap Int) (name : String) : NameMap Int :=
  let taken := (graph.neighbours name).toList.filterMap colours.get?
  let avoid := taken ++ reserved
  colours.insert name (firstFree avoid base avoid.length 0)

/-- Gives registers to variables, the one removed last first. -/
def select (graph : InterferenceGraph) (order : List String) (base : Int) (reserved : List Int) :
    NameMap Int :=
  order.reverse.foldl (assign graph base reserved) {}

end Registers

namespace Method

/-- Whether the allocator may move a variable: locals and temporaries, but not the object
itself. -/
def isAllocatable (name : String) (descriptor : Descriptor) : Bool :=
  descriptor.scope = .localVar && name ≠ "this"

/-- The variables that the allocator may move, in increasing order. -/
def allocatable (method : Method) : List String := (method.vars.filter isAllocatable).keys

/-- The registers that the other variables hold. -/
def reserved (method : Method) : List Int :=
  (method.vars.filter fun name descriptor =>
    !isAllocatable name descriptor && 0 ≤ descriptor.register).values.map Descriptor.register

/-- The register after the greatest of the reserved ones. -/
def base (method : Method) : Int :=
  method.reserved.max?.elim 0 fun register => Registers.wrap (register + 1)

/-- The interference graph of a method. -/
def interference (method : Method) : InterferenceGraph :=
  .build method.allocatable (.analyze method)

/-- Writes registers into the variables that are given one. -/
def withRegisters (method : Method) (assignments : NameMap Int) : Method :=
  { method with
    vars := method.vars.mapValues fun name descriptor =>
      { descriptor with register := (assignments.get? name).getD descriptor.register } }

/-- Gives registers to the locals of a method within a budget. A negative budget changes
nothing, and zero sets no limit. -/
def allocate (method : Method) (budget : Int) : Except AllocationError (Method × Allocation) :=
  if budget < 0 then .ok (method, { method := method.name })
  else
    let limit := budget.toNat
    let graph := method.interference
    match graph.simplify limit with
    | .error required => .error ⟨method.name, limit, required⟩
    | .ok order =>
      let assignments := Registers.select graph order method.base method.reserved
      let allocation : Allocation := { method := method.name, assignments }
      if limit > 0 && allocation.registersUsed > limit then
        .error ⟨method.name, limit, allocation.registersUsed⟩
      else .ok (method.withRegisters assignments, allocation)

/-- A method after allocation, and the report of one that does not fit and stays as it
is. -/
def allocateOrReport (method : Method) (budget : Int) : Method × List Report :=
  match method.allocate budget with
  | .ok (allocated, _) => (allocated, [])
  | .error error => (method, [.unlocated .optimization error.message])

end Method

/-- Gives registers to the locals of every method; one that does not fit stays as it is
and is reported. -/
def ClassUnit.allocate (unit : ClassUnit) (budget : Int) : ClassUnit × List Report :=
  let results := unit.methods.map fun method => method.allocateOrReport budget
  ({ unit with methods := results.map (·.1) }, results.flatMap (·.2))

end ClassCompiler
