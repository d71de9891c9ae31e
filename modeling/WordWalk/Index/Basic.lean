import Std.Data.TreeMap
import Std.Data.TreeSet
import WordWalk.Saturation
import WordWalk.Index.BuildError

/-! # Grammar index

The tables from which words are recognized: for every label, and for every pair of
numbers, the numbers that derive it. Unit rules are folded into the tables, so each
entry is closed under going from a nonterminal to one that derives it alone.
-/

namespace WordWalk

abbrev IdSet := Std.TreeSet Nat

structure IdPair where
  left : Nat
  right : Nat
  deriving DecidableEq, Repr

/-- Pairs are ordered by their left member, then by their right one. -/
def IdPair.order : IdPair → IdPair → Ordering :=
  compareLex (compareOn IdPair.left) (compareOn IdPair.right)

namespace NormalForm

/-- The numbers that derive `id` by a single unit rule, in the order of the rules. -/
def parents (form : NormalForm) (id : Nat) : List Nat :=
  ((form.units.filter (·.child == id)).map (·.parent)).reverse

/-- The numbers that derive `id` by unit rules alone, `id` included. Every unit rule makes
    at most one number pending, which bounds the fuel. -/
def ancestors (form : NormalForm) (id : Nat) : IdSet :=
  saturate (fun _ => form.parents) (form.units.length + 1) [id] ∅

end NormalForm

/-- The numbers of the nonterminals of a grammar. -/
def Grammar.numbers (g : Grammar) : Std.TreeMap String Nat := .ofList g.nonterminals.zipIdx

structure Index where
  form : NormalForm
  /-- The numbers of the nonterminals of the grammar, helpers left out. -/
  numbers : Std.TreeMap String Nat
  /-- The number of the start symbol. -/
  start : Nat
  /-- The number of rules of the grammar as it was given. -/
  ruleCount : Nat
  /-- For each number, those that derive it by unit rules alone. -/
  closures : Array IdSet
  byLabel : Std.TreeMap String IdSet
  byPair : Std.TreeMap IdPair IdSet IdPair.order

namespace Index

def ofNormalForm (form : NormalForm) (numbers : Std.TreeMap String Nat) (start ruleCount : Nat) : Index :=
  let closures := (Array.range form.names.size).map form.ancestors
  let closure (id : Nat) : IdSet := closures.getD id ∅
  { form, numbers, start, ruleCount, closures
    byLabel := form.lexicals.foldl
      (fun table r => table.insert r.label (table.getD r.label ∅ ∪ closure r.head)) ∅
    byPair := form.pairs.foldl
      (fun table r =>
        table.insert ⟨r.left, r.right⟩ (table.getD ⟨r.left, r.right⟩ ∅ ∪ closure r.head)) ∅ }

/-- The index of a grammar that has no fault. -/
def ofGrammar (g : Grammar) : Index :=
  ofNormalForm (.ofGrammar g) g.numbers (g.nonterminals.idxOf startSymbol) g.ruleCount

/-- Indexes a grammar, or reports the first thing that is wrong with it. -/
def build (policy : Policy) (g : Grammar) : Except BuildError Index :=
  match g.fault? policy with
  | some fault => .error fault
  | none => .ok (ofGrammar g)

/-- The number of nonterminals, helpers included. -/
def nonterminalCount (index : Index) : Nat := index.form.names.size

/-- The number of a nonterminal of the grammar. Helpers are not found by name. -/
def idOf? (index : Index) (name : String) : Option Nat := index.numbers[name]?

def nameOf? (index : Index) (id : Nat) : Option String := index.form.names[id]?

/-- The names of the numbers, unknown numbers left out. -/
def namesOf (index : Index) (ids : List Nat) : List String := ids.filterMap index.nameOf?

def isHelper (index : Index) (id : Nat) : Bool :=
  index.form.userCount ≤ id && id < index.nonterminalCount

def producersOfLabel? (index : Index) (label : String) : Option IdSet := index.byLabel[label]?

/-- The numbers that derive a word of `left` followed by one of `right` by a single rule,
    or by unit rules in front of one. -/
def producersOfPair? (index : Index) (left right : Nat) : Option IdSet :=
  index.byPair[IdPair.mk left right]?

def terminals (index : Index) : List String := index.byLabel.keys

/-- The numbers that derive `id` by unit rules alone, `id` included. -/
def unitClosure? (index : Index) (id : Nat) : Option IdSet := index.closures[id]?

end Index

end WordWalk
