import WordWalk.Index.NormalForm

/-! # Why a grammar cannot be indexed

A grammar needs a start symbol and must not have an empty rule. Under the strict policy
every rule has to be a single terminal or a pair of nonterminals. The first fault in
the order of the grammar's listing is the one that counts.
-/

namespace WordWalk

inductive Irregularity where
  | unitProduction
  | terminalInPair
  | tooLong
  deriving DecidableEq, Repr

def Irregularity.text : Irregularity → String
  | unitProduction => "unit production"
  | terminalInPair => "terminal inside a binary rule"
  | tooLong => "more than two symbols"

inductive BuildError where
  | missingStart
  | emptyRule (nonterminal : String) (index : Nat)
  | irregular (nonterminal : String) (index : Nat) (how : Irregularity)
  deriving DecidableEq, Repr

def BuildError.parts : BuildError → List String
  | missingStart => ["Grammar must have a start symbol '", startSymbol, "'"]
  | emptyRule nonterminal index =>
      ["Invalid production rule for non-terminal '", nonterminal, "': ", s!"rule {index} is empty"]
  | irregular nonterminal index how =>
      ["Rule ", toString index, " of non-terminal '", nonterminal, "' is not in normal form: ",
        how.text]

def BuildError.message (e : BuildError) : String := String.join e.parts

/-- How a body departs from normal form, if it does. The empty body is another matter. -/
def irregularity? : List Symbol → Option Irregularity
  | [] | [.terminal _] | [.nonterminal _, .nonterminal _] => none
  | [.nonterminal _] => some .unitProduction
  | [_, _] => some .terminalInPair
  | _ => some .tooLong

/-- What is wrong with one rule under a policy, if anything. -/
def Production.fault? (p : Production) (g : Grammar) (policy : Policy) : Option BuildError :=
  if p.body.isEmpty then some (.emptyRule p.nonterminal p.index)
  else match policy with
    | .normalize => none
    | .strict =>
        (irregularity? (p.body.map g.classify)).map (.irregular p.nonterminal p.index)

/-- The fault that keeps the grammar from being indexed, if there is one. -/
def Grammar.fault? (g : Grammar) (policy : Policy) : Option BuildError :=
  if startSymbol ∈ g then g.listing.findSome? (·.fault? g policy)
  else some .missingStart

end WordWalk
