import Std.Data.TreeSet
import WordWalk.Graph
import WordWalk.Search.Event

/-! # Search for accepted routes

A search explores the walks from a source, depth first, and tests every arrival at the
target against the grammar. The target is never left again. Two walks that end at the
same node with the same labels are one state, and only the first of them is followed.

A step takes one walk from the stack, so a search is a sequence of steps that is over
when the stack is empty. `settle` takes enough steps whenever enough exist.
-/

namespace WordWalk

/-- A walk under construction, its latest part first. -/
structure Trail where
  /-- The node where the walk stands. -/
  node : String
  /-- The nodes before it. -/
  behind : List String
  /-- The labels of the edges taken. -/
  labels : List String
  deriving DecidableEq, Repr

namespace Trail

def start (source : String) : Trail := ⟨source, [], []⟩

def extend (t : Trail) (e : Edge) : Trail :=
  ⟨e.target, t.node :: t.behind, e.label :: t.labels⟩

def route (t : Trail) : Route := ⟨(t.node :: t.behind).reverse, t.labels.reverse⟩

/-- The state of the walk: its last node, followed by its labels. -/
def state (t : Trail) : List String := t.node :: t.labels

end Trail

/-- What is searched for, where, and within which limits. -/
structure Query where
  graph : Graph
  index : Index
  source : String
  target : String
  limits : Limits
  /-- Whether the search tells what it does. -/
  traced : Bool := false

/-- How far a search has come. Routes and events are listed latest first. -/
structure Progress where
  /-- The walks that are still to be looked at, next one first. -/
  stack : List Trail
  /-- The states recorded. -/
  seen : Std.TreeSet (List String)
  routes : List Route
  truncation : Option Truncation
  events : List SearchEvent

namespace Progress

/-- Nothing is left to look at. -/
def isSettled (p : Progress) : Bool := p.stack.isEmpty

/-- Adds events, oldest first, if the search is traced. -/
def tell (p : Progress) (traced : Bool) (events : Unit → List SearchEvent) : Progress :=
  if traced then { p with events := (events ()).reverse ++ p.events } else p

end Progress

namespace Query

/-- Before the first step: the source alone, unless the graph does not have it. -/
def initial (q : Query) : Progress :=
  { stack := if q.source ∈ q.graph then [.start q.source] else []
    seen := ∅, routes := [], truncation := none, events := [] }

/-- Whether the recorded states have used up the limit. -/
def exhausted? (q : Query) (p : Progress) : Option Nat :=
  q.limits.maxStates.filter (· ≤ p.seen.size)

/-- Tests an arrival at the target. -/
def arrive (q : Query) (t : Trail) (p : Progress) : Progress :=
  let route := t.route
  let length := route.labels.length
  let chart := Chart.ofWord q.index route.labels
  let accepted := chart.accepts q.index length
  let p := if accepted then { p with routes := route :: p.routes } else p
  p.tell q.traced fun _ =>
    (chart.events q.index length).map SearchEvent.chart ++
      [if accepted then .accepted route else .rejected route]

/-- Puts the walks that continue `t` on the stack, the one along the last edge on top,
    unless `t` has the greatest length already. -/
def expand (q : Query) (t : Trail) (p : Progress) : Progress :=
  match q.graph.edges t.node with
  | [] => p
  | edges =>
      match q.limits.maxLength.filter (· ≤ t.labels.length) with
      | some limit => { p with truncation := p.truncation.or (some (.length limit)) }
      | none => { p with stack := (edges.map t.extend).reverse ++ p.stack }

/-- Records the state of a walk and follows it up. -/
def visit (q : Query) (t : Trail) (p : Progress) : Progress :=
  let p := { p with seen := p.seen.insert t.state }.tell q.traced fun _ => [.exploring t.route]
  if t.node = q.target then q.arrive t p else q.expand t p

/-- Looks at the next walk: a state recorded before is dropped, and a new one beyond the
    greatest number ends the search. -/
def step (q : Query) (p : Progress) : Progress :=
  match p.stack with
  | [] => p
  | t :: rest =>
      if t.state ∈ p.seen then { p with stack := rest }
      else
        match q.exhausted? p with
        | some limit => { p with stack := [], truncation := some (.states limit) }
        | none => q.visit t { p with stack := rest }

def after (q : Query) : Nat → Progress
  | 0 => q.initial
  | n + 1 => q.step (q.after n)

/-- Takes `2 ^ k` steps, or fewer if the search is over before. -/
def burst (q : Query) : Nat → Progress → Progress
  | 0, p => q.step p
  | k + 1, p =>
      let p := q.burst k p
      if p.isSettled then p else q.burst k p

/-- Takes bursts of `2 ^ k`, `2 ^ (k + 1)`, … steps until the search is over or the rounds
    are spent. -/
def settle (q : Query) : Nat → Nat → Progress → Progress
  | 0, _, p => p
  | rounds + 1, k, p => if p.isSettled then p else q.settle rounds (k + 1) (q.burst k p)

/-- Enough rounds for every search that comes to an end. A recorded state adds at most as
    many walks as the graph has edges, and without a limit on the states a walk is
    followed no further than its greatest length, or, when a search without limits
    ends, than the number of nodes. -/
def rounds (q : Query) : Nat :=
  let edges := q.graph.edgeCount
  match q.limits.maxStates with
  | some limit => (limit * edges + 1).log2 + 1
  | none =>
      let depth := q.limits.maxLength.getD (q.graph.nodeCount + 1)
      ((edges + 1).log2 + 1) * (depth + 1) + 1

/-- The search taken to its end. -/
def final (q : Query) : Progress := q.settle q.rounds 0 q.initial

def warnings (q : Query) (p : Progress) : List Warning :=
  if q.source ∈ q.graph then (p.truncation.map .truncated).toList else [.unknownStart q.source]

def reportOn (q : Query) (p : Progress) : Report :=
  { routes := p.routes.reverse, expanded := p.seen.size, warnings := q.warnings p }

def report (q : Query) : Report := q.reportOn q.final

/-- The events up to some progress, oldest first, with the truncation at the end. -/
def eventsOf (p : Progress) : List SearchEvent :=
  p.events.reverse ++ (p.truncation.map .truncated).toList

def events (q : Query) : List SearchEvent := eventsOf q.final

end Query

def findRoutes (graph : Graph) (index : Index) (source target : String) : List Route :=
  Query.report { graph, index, source, target, limits := .unbounded } |>.routes

end WordWalk
