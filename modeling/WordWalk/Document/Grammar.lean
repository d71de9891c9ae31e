import WordWalk.Grammar
import WordWalk.Json.Printer
import WordWalk.Json.Reader

/-! # Grammar documents

A grammar is written as an object that maps each nonterminal to the list of its rules,
and a rule as the list of its symbols. A document of another shape is described in terms
of grammars: the first fault counts, with nonterminals in ascending order.
-/

namespace WordWalk

/-- Why a document is not a grammar. -/
inductive ShapeError where
  | notObject (found : Json.Kind)
  | notRules (nonterminal : String) (found : Json.Kind)
  | notRule (nonterminal : String) (index : Nat) (found : Json.Kind)
  | notSymbol (nonterminal : String) (index : Nat) (symbol : Json)
  deriving Repr

namespace ShapeError

/-- The fault within the rules of a nonterminal. -/
def reason : ShapeError → String
  | notObject found => s!"found {found.name}"
  | notRules _ found => s!"expected a list of rules, found {found.name}"
  | notRule _ index found => s!"rule {index} is not a list, found {found.name}"
  | notSymbol _ index symbol => s!"rule {index} contains non-string symbol " ++ symbol.compact

def message : ShapeError → String
  | notObject found =>
      s!"Grammar must be a mapping from non-terminal to production rules, found {found.name}"
  | e@(notRules nonterminal _) | e@(notRule nonterminal _ _) | e@(notSymbol nonterminal _ _) =>
      s!"Invalid production rule for non-terminal '{nonterminal}': " ++ e.reason

end ShapeError

namespace Grammar

def ofList (rules : List (String × List Rule)) : Grammar := ⟨.ofList rules⟩

def toJson (g : Grammar) : Json :=
  .object (g.toList.map fun (name, rules) => (name, .list (rules.map .ofTexts)))

def reader (fuel : Nat) : Json.Reader Grammar := fun cs => do
  let (rules, rest) ← Json.Reader.objectOf fuel
    (Json.Reader.listOf fuel (Json.Reader.listOf fuel Json.Reader.text)) cs
  return (.ofList rules, rest)

/-- The name that a document stands for in a rule. -/
def symbolOfJson (nonterminal : String) (index : Nat) : Json → Except ShapeError String
  | .text name => .ok name
  | v => .error (.notSymbol nonterminal index v)

def ruleOfJson (nonterminal : String) (index : Nat) : Json → Except ShapeError Rule
  | .list symbols => symbols.mapM (symbolOfJson nonterminal index)
  | v => .error (.notRule nonterminal index v.kind)

def rulesOfJson (nonterminal : String) : Json → Except ShapeError (List Rule)
  | .list rules => rules.zipIdx.mapM fun (rule, index) => ruleOfJson nonterminal index rule
  | v => .error (.notRules nonterminal v.kind)

/-- The grammar of a document, or the first thing that is wrong with it. -/
def ofJson : Json → Except ShapeError Grammar
  | .object members => do
      let rules ← members.mapM fun (name, v) => do return (name, ← rulesOfJson name v)
      return .ofList rules
  | v => .error (.notObject v.kind)

end Grammar

end WordWalk
