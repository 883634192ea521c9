import ClassCompiler.Registers.Liveness

/-! Interference graphs: undirected graphs of the variables that compete for registers. -/

namespace ClassCompiler
set_option autoImplicit false

/-- A graph: the neighbours of every node. -/
structure InterferenceGraph where
  adjacency : NameMap NameSet := {}
  deriving DecidableEq

namespace InterferenceGraph

def contains (graph : InterferenceGraph) (name : String) : Bool := graph.adjacency.contains name

/-- The neighbours of a node; what is no node has none. -/
def neighbours (graph : InterferenceGraph) (name : String) : NameSet :=
  (graph.adjacency.get? name).getD {}

def interferes (graph : InterferenceGraph) (a b : String) : Bool := b ∈ graph.neighbours a

def degree (graph : InterferenceGraph) (name : String) : Nat := (graph.neighbours name).size

def nodes (graph : InterferenceGraph) : List String := graph.adjacency.keys

def size (graph : InterferenceGraph) : Nat := graph.adjacency.size

def isEmpty (graph : InterferenceGraph) : Bool := graph.adjacency.isEmpty

def addNode (graph : InterferenceGraph) (name : String) : InterferenceGraph :=
  if graph.contains name then graph else ⟨graph.adjacency.insert name {}⟩

/-- Adds a neighbour on one side. -/
def link (graph : InterferenceGraph) (a b : String) : InterferenceGraph :=
  ⟨graph.adjacency.insert a ((graph.neighbours a).insert b)⟩

/-- Joins two nodes and adds those that are missing; a node is not joined to itself. -/
def addEdge (graph : InterferenceGraph) (a b : String) : InterferenceGraph :=
  if a = b then graph else (graph.link a b).link b a

def remove (graph : InterferenceGraph) (name : String) : InterferenceGraph :=
  ⟨(graph.adjacency.erase name).mapValues fun _ neighbours => neighbours.erase name⟩

def joinAll (graph : InterferenceGraph) : List String → InterferenceGraph
  | [] => graph
  | name :: names => (names.foldl (fun graph other => graph.addEdge name other) graph).joinAll names

/-- The graph of variables: those written or live together after some instruction are
joined. -/
def build (names : List String) (liveness : Liveness) : InterferenceGraph :=
  let bare := names.foldl addNode {}
  (liveness.flow.defs.zip liveness.liveOut).foldl
    (fun graph (defs, liveOut) =>
      graph.joinAll ((defs.union liveOut).filter graph.contains).toList)
    bare

end InterferenceGraph
end ClassCompiler
