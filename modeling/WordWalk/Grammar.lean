import Std.Data.ExtTreeMap
import WordWalk.Symbol

/-! # Context-free grammars

A grammar maps each nonterminal to its rules, in the order in which they were added. A
rule is a list of names, and a name is a nonterminal exactly when the grammar has an
entry for it, perhaps without rules. Nothing else is required of a grammar until it is
indexed.
-/

namespace WordWalk

/-- The body of a production: names without a role. -/
abbrev Rule := List String

/-- The rules of every nonterminal. -/
structure Grammar where
  productions : Std.ExtTreeMap String (List Rule)
  deriving DecidableEq

/-- The nonterminal from which words are derived. -/
def startSymbol : String := "S"

/-- A rule at its place: the `index`-th rule of `nonterminal`. -/
structure Production where
  nonterminal : String
  index : Nat
  body : Rule
  deriving DecidableEq, Repr

namespace Grammar

def empty : Grammar := ⟨∅⟩

instance : EmptyCollection Grammar := ⟨empty⟩

instance : Inhabited Grammar := ⟨empty⟩

/-- A name is a nonterminal when it has an entry. -/
instance : Membership String Grammar := ⟨fun g name => name ∈ g.productions⟩

instance (g : Grammar) (name : String) : Decidable (name ∈ g) :=
  inferInstanceAs (Decidable (name ∈ g.productions))

/-- The rules of a nonterminal, oldest first. -/
def rulesFor? (g : Grammar) (name : String) : Option (List Rule) := g.productions[name]?

/-- Makes `name` a nonterminal. Its rules, if it has any, stay. -/
def addNonterminal (g : Grammar) (name : String) : Grammar :=
  ⟨g.productions.insertIfNew name []⟩

def addRule (g : Grammar) (name : String) (body : Rule) : Grammar :=
  ⟨g.productions.insert name (g.productions.getD name [] ++ [body])⟩

/-- The nonterminals, ascending. -/
def nonterminals (g : Grammar) : List String := g.productions.keys

/-- Every nonterminal with its rules, by ascending name. -/
def toList (g : Grammar) : List (String × List Rule) := g.productions.toList

/-- Every rule at its place, by ascending nonterminal and then in order of age. -/
def listing (g : Grammar) : List Production :=
  g.toList.flatMap fun (name, rules) =>
    rules.zipIdx.map fun (body, index) => ⟨name, index, body⟩

def ruleCount (g : Grammar) : Nat := g.toList.foldr (fun production n => production.2.length + n) 0

def classify (g : Grammar) (name : String) : Symbol :=
  if name ∈ g then .nonterminal name else .terminal name

end Grammar

end WordWalk
