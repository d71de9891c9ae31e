import WordWalk.Route

/-! # What a search reports

Limits on a search, the reasons for leaving something unexplored, and the report that
says which routes were found and whether anything was left out.
-/

namespace WordWalk

/-- Bounds on a search. A bound that is not set does not hold anything back. -/
structure Limits where
  /-- The most labels that a state may have and still be expanded to longer ones. -/
  maxLength : Option Nat
  /-- The most states that are recorded. -/
  maxStates : Option Nat
  deriving DecidableEq, Repr

/-- The number of states that a search records unless told otherwise. -/
def defaultMaxStates : Nat := 1000000

namespace Limits

def unbounded : Limits := ⟨none, none⟩

def default : Limits := ⟨none, some defaultMaxStates⟩

end Limits

/-- Why part of the search space was left out. -/
inductive Truncation where
  /-- Some state with the greatest length allowed could have been expanded. -/
  | length (limit : Nat)
  /-- A further state turned up when the greatest number was recorded already. -/
  | states (limit : Nat)
  deriving DecidableEq, Repr

def Truncation.parts : Truncation → List String
  | length limit => ["paths longer than ", toString limit, " labels were not explored"]
  | states limit => ["explored-state budget of ", toString limit, " exhausted"]

def Truncation.text (t : Truncation) : String := String.join t.parts

/-- What the reader of a report should know about it. -/
inductive Warning where
  | unknownStart (node : String)
  | truncated (why : Truncation)
  deriving DecidableEq, Repr

def Warning.parts : Warning → List String
  | unknownStart node => ["Start node '", node, "' not found in graph."]
  | truncated why => "Search truncated: " :: why.parts

def Warning.text (w : Warning) : String := String.join w.parts

def Warning.truncation? : Warning → Option Truncation
  | unknownStart _ => none
  | truncated why => some why

structure Report where
  /-- The accepted routes, in the order of finding them. -/
  routes : List Route
  /-- The number of states recorded. -/
  expanded : Nat
  warnings : List Warning
  deriving DecidableEq, Repr

namespace Report

/-- Why the search left something out, if it did. -/
def truncation? (r : Report) : Option Truncation := r.warnings.findSome? Warning.truncation?

/-- Whether everything in reach was explored. -/
def isComplete (r : Report) : Bool := r.truncation?.isNone

end Report

end WordWalk
