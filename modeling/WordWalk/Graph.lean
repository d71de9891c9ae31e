import Std.Data.ExtTreeMap
import Std.Data.TreeSet
import WordWalk.Saturation

/-! # Edge-labelled directed graphs

A graph maps each of its nodes to the edges that leave it, in the order in which they
were added. Self-loops and parallel edges are allowed. Only a node that was added
itself, or as the source of an edge, belongs to the graph: an edge may point at a
name that has no entry.
-/

namespace WordWalk

structure Edge where
  target : String
  label : String
  deriving DecidableEq, Repr

/-- The outgoing edges of every node. -/
structure Graph where
  adjacency : Std.ExtTreeMap String (List Edge)
  deriving DecidableEq

namespace Graph

def empty : Graph := ⟨∅⟩

instance : EmptyCollection Graph := ⟨empty⟩

instance : Inhabited Graph := ⟨empty⟩

/-- A name belongs to the graph when it has an entry, perhaps without edges. -/
instance : Membership String Graph := ⟨fun g node => node ∈ g.adjacency⟩

instance (g : Graph) (node : String) : Decidable (node ∈ g) :=
  inferInstanceAs (Decidable (node ∈ g.adjacency))

/-- The edges that leave `node`, oldest first. A name outside the graph has none. -/
def edges (g : Graph) (node : String) : List Edge := g.adjacency.getD node []

/-- Makes `node` part of the graph. Its edges, if it has any, stay. -/
def addNode (g : Graph) (node : String) : Graph := ⟨g.adjacency.insertIfNew node []⟩

/-- Appends an edge. Only its source becomes part of the graph. -/
def addEdge (g : Graph) (source target label : String) : Graph :=
  ⟨g.adjacency.insert source (g.edges source ++ [⟨target, label⟩])⟩

/-- The graph of a list of edges, given as source, target and label, oldest first. -/
def ofEdges (triples : List (String × String × String)) : Graph :=
  triples.foldl (fun g (source, target, label) => g.addEdge source target label) ∅

def hasEdge (g : Graph) (source target label : String) : Bool :=
  (g.edges source).contains ⟨target, label⟩

def toList (g : Graph) : List (String × List Edge) := g.adjacency.toList

/-- The number of nodes that have an entry. -/
def nodeCount (g : Graph) : Nat := g.adjacency.size

/-- The number of edges, parallel ones counted separately. -/
def edgeCount (g : Graph) : Nat := g.toList.foldr (fun node n => node.2.length + n) 0

def successors (g : Graph) (node : String) : List String := (g.edges node).map (·.target)

/-- Where one edge leads from `node`, except for what is collected already. -/
def freshSuccessors (g : Graph) (seen : Std.TreeSet String) (node : String) : List String :=
  (g.successors node).filter (· ∉ seen)

/-- The nodes at the end of some walk from `source`, itself included. Every edge makes at
    most one node pending, which bounds the fuel. -/
def reachableFrom (g : Graph) (source : String) : Std.TreeSet String :=
  saturate g.freshSuccessors (g.edgeCount + 1) [source] ∅

end Graph

end WordWalk
