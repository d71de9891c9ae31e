import WordWalk.Chart

/-! # Charts in one array

The chart of a word of `n` labels fits into one array of `n * n` slots, with a cell for every pair of a
first and a last label. The loops that fill it go through the cells of single labels and then through
those of longer spans by their lengths, and tell what they do if somebody listens. Here they halt at a
slot outside the array and at a number outside the chart, and every access is written down. They never
halt, and an access never finds or leaves anything but the final contents of a cell.

Only differences are checked. A product is at most the number of slots, so it fits where the array does.
-/

namespace WordWalk

/-- An access to the cell of a span, with the contents that it has found or left there. -/
inductive Access where
  | read (first last : Nat) (contents : IdSet)
  | write (first last : Nat) (contents : IdSet)

namespace Access

def bounds : Access → Nat × Nat
  | read first last _ | write first last _ => (first, last)

def contents : Access → IdSet
  | read _ _ contents | write _ _ contents => contents

/-- The span whose cell was written. -/
def written? : Access → Option (Nat × Nat)
  | read .. => none
  | write first last _ => some (first, last)

end Access

/-- The array of a chart. Accesses and events are listed oldest first. -/
structure FlatChart where
  side : Nat
  slots : Array IdSet
  accesses : List Access
  events : List ChartEvent

/-- Work on a chart that may halt. -/
abbrev Filling := StateT FlatChart Option

namespace FlatChart

def blank (side : Nat) : FlatChart := ⟨side, Array.replicate (side * side) ∅, [], []⟩

def slot (side first last : Nat) : Nat := first * side + last

def contents? (chart : FlatChart) (first last : Nat) : Option IdSet := chart.slots[slot chart.side first last]?

def cell (first last : Nat) : Filling IdSet := fun chart => do
  let contents ← chart.contents? first last
  return (contents, { chart with accesses := chart.accesses ++ [.read first last contents] })

def change (first last : Nat) (f : IdSet → IdSet) : Filling Unit := fun chart => do
  let contents := f (← chart.contents? first last)
  return ((), { chart with
    slots := chart.slots.setIfInBounds (slot chart.side first last) contents
    accesses := chart.accesses ++ [.write first last contents] })

/-- The number of a label, as a difference. -/
def number (total a b : Nat) : Filling Nat := if b ≤ a ∧ a - b < total then pure (a - b) else failure

def tell (heard : Bool) (event : ChartEvent) : Filling Unit := fun chart =>
  some ((), { chart with events := chart.events ++ if heard then [event] else [] })

/-- Fills the cell of a single label. A chart whose events are told is looked at once more. -/
def seed (index : Index) (traced : Bool) (label : String) (i : Nat) : Filling Unit := do
  match index.producersOfLabel? label with
  | none => pure ()
  | some producers => change i i (· ∪ producers)
  if traced then tell true (.seeded i (index.namesOf (← cell i i).toList))

/-- Collects the numbers that derive a span cut in two after the label `k`. -/
def join (index : Index) (i j : Nat) (derived : IdSet) (k : Nat) : Filling IdSet := do
  (← cell i k).toList.foldlM (fun derived left => do
    return (← cell (k + 1) j).foldl
      (fun derived right => derived ∪ (index.producersOfPair? left right).getD ∅) derived) derived

/-- Fills the cell of a span of two or more labels, after telling of it if there is something to tell. -/
def fillSpan (index : Index) (traced : Bool) (total length i : Nat) : Filling Unit := do
  let j ← number total (i + length) 1
  let derived ← (List.range' i (j - i)).foldlM (join index i j) ∅
  tell (traced && !derived.isEmpty) (.filled i j (index.namesOf derived.toList))
  change i j fun _ => derived

/-- Fills the cells of all spans of a length. -/
def fillSpans (index : Index) (traced : Bool) (total length : Nat) : Filling Unit := do
  let last ← number total total length
  (List.range (last + 1)).forM (fillSpan index traced total length)

def fill (index : Index) (traced : Bool) (word : List String) : Filling Unit := do
  word.zipIdx.forM fun place => seed index traced place.1 place.2
  (List.range' 2 (word.length - 1)).forM (fillSpans index traced word.length)

/-- Whether the whole word is derived from the start symbol. -/
def recognize (index : Index) (traced : Bool) (word : List String) : Filling Bool := do
  if word = [] then return false
  fill index traced word
  let last ← number word.length word.length 1
  let accepted := (← cell 0 last).contains index.start
  tell traced (.finished word.length accepted)
  return accepted

end FlatChart

end WordWalk
