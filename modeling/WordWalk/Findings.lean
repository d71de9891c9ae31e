import WordWalk.Graph
import WordWalk.Json.Printer
import WordWalk.Search.Report
import WordWalk.Document.Route

/-! # Findings

The results of a run, written as lines of text or as a JSON document. Nodes in reach come in no
particular order and are sorted by name when they are written.
-/

namespace WordWalk

/-- Nodes in any order, each of them once. -/
structure NodeSet where
  nodes : List String
  distinct : nodes.Nodup
  deriving DecidableEq, Repr

namespace NodeSet

instance : Membership String NodeSet := ⟨fun s node => node ∈ s.nodes⟩

def ofTree (nodes : Std.TreeSet String) : NodeSet where
  nodes := nodes.toList
  distinct := Std.TreeSet.distinct_toList.imp fun {_ _} differ same =>
    differ (Std.LawfulEqCmp.compare_eq_iff_eq.mpr same)

def size (s : NodeSet) : Nat := s.nodes.length

/-- The nodes by ascending name. -/
def sorted (s : NodeSet) : List String := s.nodes.mergeSort (· ≤ ·)

end NodeSet

/-- What a run found out. -/
structure Findings where
  source : String
  target : String
  report : Report
  /-- The nodes in reach of the source, labels ignored. -/
  reachable : NodeSet

namespace Findings

/-- The routes line by line, and the nodes in reach. -/
def text (f : Findings) : String :=
  let routes :=
    if f.report.routes.isEmpty then "No valid paths found.\n"
    else "Valid Paths:\n" ++ String.join (f.report.routes.map fun r => r.text ++ "\n")
  let reachable := "\x7b" ++ ", ".intercalate f.reachable.sorted ++ "\x7d"
  routes ++ s!"\nNodes reachable from {f.source} : {reachable}\n"

def toJson (f : Findings) : Json :=
  .object
    [("start", .text f.source),
      ("end", .text f.target),
      ("paths", .list (f.report.routes.map Route.toJson)),
      ("reachable", .ofTexts f.reachable.sorted),
      ("expanded_states", .number (.integer f.report.expanded)),
      ("complete", .bool f.report.isComplete),
      ("warnings", .ofTexts (f.report.warnings.map Warning.text))]

def render (f : Findings) (json : Bool) : String :=
  if json then f.toJson.pretty ++ "\n" else f.text

end Findings

end WordWalk
