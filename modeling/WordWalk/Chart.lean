import WordWalk.Index.Basic

/-! # Recognition charts

The chart of a word holds, for every span of consecutive labels, the numbers that
derive it. Rows are ordered by the length of their spans: the row at place `k` belongs
to spans of `k + 1` labels and is computed from the rows before it alone.
-/

namespace WordWalk

/-- What happens while a word is recognized. -/
inductive ChartEvent where
  /-- The cell of a single label got its contents. -/
  | seeded (position : Nat) (names : List String)
  /-- A longer span, from its first to its last label, turned out to be derivable. -/
  | filled (first last : Nat) (names : List String)
  /-- The verdict on the whole word. -/
  | finished (length : Nat) (accepted : Bool)
  deriving DecidableEq, Repr

/-- The rows of cells computed so far, shortest spans first. -/
structure Chart where
  rows : Array (Array IdSet)

namespace Chart

/-- The numbers that derive the span of `extra + 1` labels from `first` on. A cell outside
    the chart is empty. -/
def cell (chart : Chart) (first extra : Nat) : IdSet :=
  ((chart.rows[extra]?).bind (·[first]?)).getD ∅

/-- The numbers with a rule for some pair from the two cells. -/
def combine (index : Index) (left right : IdSet) : IdSet :=
  left.foldl (fun set l =>
    right.foldl (fun set r => set ∪ (index.producersOfPair? l r).getD ∅) set) ∅

/-- The contents of a longer cell: every way to split its span is tried. -/
def derive (index : Index) (chart : Chart) (first extra : Nat) : IdSet :=
  (List.range extra).foldl (fun set k =>
    set ∪ combine index (chart.cell first k) (chart.cell (first + k + 1) (extra - k - 1))) ∅

def firstRow (index : Index) (word : List String) : Array IdSet :=
  (word.map fun label => (index.producersOfLabel? label).getD ∅).toArray

/-- Adds the row of the next longer spans of a word of `length` labels. -/
def addRow (index : Index) (length : Nat) (chart : Chart) : Chart :=
  let extra := chart.rows.size
  ⟨chart.rows.push ((Array.range (length - extra)).map (derive index chart · extra))⟩

def addRows (index : Index) (length : Nat) : Nat → Chart → Chart
  | 0, chart => chart
  | n + 1, chart => addRows index length n (addRow index length chart)

def ofWord (index : Index) (word : List String) : Chart :=
  addRows index word.length (word.length - 1) ⟨#[firstRow index word]⟩

/-- Whether the whole word of the given length is derived from the start symbol. The empty
    word never is. -/
def accepts (chart : Chart) (index : Index) (length : Nat) : Bool :=
  length != 0 && (chart.cell 0 (length - 1)).contains index.start

/-- The events of recognizing a word: all single labels, then every derivable longer span
    by length and place, then the verdict. The empty word has none. -/
def events (chart : Chart) (index : Index) (length : Nat) : List ChartEvent :=
  if length = 0 then []
  else
    let names (set : IdSet) := index.namesOf set.toList
    let seeds := (List.range length).map fun i => .seeded i (names (chart.cell i 0))
    let longer := (List.range (length - 1)).flatMap fun k =>
      (List.range (length - (k + 1))).filterMap fun i =>
        let set := chart.cell i (k + 1)
        if set.isEmpty then none else some (.filled i (i + k + 1) (names set))
    seeds ++ longer ++ [.finished length (chart.accepts index length)]

end Chart

namespace Index

def accepts (index : Index) (word : List String) : Bool :=
  (Chart.ofWord index word).accepts index word.length

def recognitionEvents (index : Index) (word : List String) : List ChartEvent :=
  (Chart.ofWord index word).events index word.length

end Index

end WordWalk
