import WordWalk.Chart
import WordWalk.Search.Report

/-! # Search events

A traced search tells what it does step by step. The wording of every event stands
here, that of the chart events included, in the parts in which a log takes it.
-/

namespace WordWalk

/-- A step of a traced search. -/
inductive SearchEvent where
  /-- A state was recorded. -/
  | exploring (route : Route)
  /-- Something happened while the labels of an arrival were recognized. -/
  | chart (event : ChartEvent)
  | accepted (route : Route)
  | rejected (route : Route)
  /-- Part of the search space was left out. -/
  | truncated (why : Truncation)
  deriving DecidableEq, Repr

/-- The parts of the wording of a chart event. -/
def ChartEvent.parts : ChartEvent → List String
  | seeded i names =>
      ["CYK Table[", toString i, "][", toString i, "] initialized with: \x7b",
        ", ".intercalate names, "\x7d"]
  | filled i j names =>
      ["CYK Table[", toString i, "][", toString j, "] updated with: \x7b",
        ", ".intercalate names, "\x7d"]
  | finished length accepted =>
      ["CYK parse of ", toString length, " label(s): ", if accepted then "accepted" else "rejected"]

def ChartEvent.text (e : ChartEvent) : String := String.join e.parts

def Route.parts (r : Route) : List String := [r.nodesText, ", Labels: ", r.labelsText]

def SearchEvent.parts : SearchEvent → List String
  | exploring r => "Exploring path: " :: r.parts
  | chart event => event.parts
  | accepted r => "Accepted path: " :: r.parts
  | rejected r => "Rejected path: " :: r.parts
  | truncated why => "Search truncated: " :: why.parts

def SearchEvent.text (e : SearchEvent) : String := String.join e.parts

end WordWalk
