/-! # Grammar symbols

A name stands for a terminal or for a nonterminal; which of the two is settled by the
grammar it is used in.
-/

namespace WordWalk

/-- A name together with its role. -/
inductive Symbol where
  | terminal (name : String)
  | nonterminal (name : String)
  deriving DecidableEq, Repr

namespace Symbol

def name : Symbol → String
  | terminal name | nonterminal name => name

def isTerminal : Symbol → Bool
  | terminal _ => true
  | nonterminal _ => false

/-- Terminals are quoted, nonterminals are bare. -/
def text : Symbol → String
  | terminal name => "'" ++ name ++ "'"
  | nonterminal name => name

/-- Terminals come before nonterminals; within a role the names decide. -/
def order : Symbol → Symbol → Ordering
  | terminal a, terminal b | nonterminal a, nonterminal b => compare a b
  | terminal _, nonterminal _ => .lt
  | nonterminal _, terminal _ => .gt

end Symbol

/-- Inserts a symbol in front of the first one that it does not follow. -/
def Symbol.insertOrdered (s : Symbol) : List Symbol → List Symbol
  | [] => [s]
  | t :: rest => if s.order t == .gt then t :: s.insertOrdered rest else s :: t :: rest

/-- The symbols in ascending order, repetitions kept. -/
def Symbol.sort (symbols : List Symbol) : List Symbol :=
  symbols.foldr Symbol.insertOrdered []

end WordWalk
