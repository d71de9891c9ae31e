/-! # Routes

A route is a walk through a graph written down: the nodes in the order of visiting them
and the labels of the edges taken in between.
-/

namespace WordWalk

/-- The nodes of a walk and the labels between them. -/
structure Route where
  nodes : List String
  labels : List String
  deriving DecidableEq, Repr, Inhabited

namespace Route

def nodesText (r : Route) : String := " -> ".intercalate r.nodes

def labelsText (r : Route) : String := String.join r.labels

/-- The nodes and then the labels, on one line. -/
def text (r : Route) : String := s!"Path: {r.nodesText}, Labels: {r.labelsText}"

end Route

end WordWalk
