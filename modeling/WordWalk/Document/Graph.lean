import WordWalk.Graph
import WordWalk.Json.Printer
import WordWalk.Json.Reader

/-! # Graph documents

A graph is written as an object that maps each node to the list of its edges, and an
edge as the list of its target and its label. If a node is given twice the last list of
edges stays.
-/

namespace WordWalk

namespace Edge

def toJson (e : Edge) : Json := .ofTexts [e.target, e.label]

def reader : Json.Reader Edge := fun cs => do
  let ((target, label), rest) ← Json.Reader.pairOf Json.Reader.text cs
  return (⟨target, label⟩, rest)

end Edge

namespace Graph

def ofList (nodes : List (String × List Edge)) : Graph := ⟨.ofList nodes⟩

def toJson (g : Graph) : Json :=
  .object (g.toList.map fun (node, edges) => (node, .list (edges.map Edge.toJson)))

def reader (fuel : Nat) : Json.Reader Graph := fun cs => do
  let (nodes, rest) ← Json.Reader.objectOf fuel (Json.Reader.listOf fuel Edge.reader) cs
  return (.ofList nodes, rest)

end Graph

end WordWalk
