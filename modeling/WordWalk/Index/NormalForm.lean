import WordWalk.Grammar

/-! # Binary normal form

The rules of a grammar over numbered nonterminals. The nonterminals of the grammar have
the numbers below `userCount`, in ascending order of their names; numbers from there on
belong to helpers. A helper is either the proxy of a terminal inside a longer rule or
the tail of a rule with more than two symbols, so a helper never gets the number of a
nonterminal even when the names agree.
-/

namespace WordWalk

/-- What becomes of a rule outside normal form. -/
inductive Policy where
  /-- The grammar is refused. -/
  | strict
  /-- The rule is broken up into binary ones. -/
  | normalize
  deriving DecidableEq, Repr

/-- A symbol of a rule with nonterminals by number. -/
inductive Atom where
  | terminal (name : String)
  | nonterminal (id : Nat)
  deriving DecidableEq, Repr

/-- The rule that lets `head` derive a word of `left` followed by one of `right`. -/
structure PairRule where
  left : Nat
  right : Nat
  head : Nat
  deriving DecidableEq, Repr

/-- The rule that lets `parent` derive every word of `child`. -/
structure UnitRule where
  parent : Nat
  child : Nat
  deriving DecidableEq, Repr

/-- The rule that lets `head` derive a single label. -/
structure LexicalRule where
  label : String
  head : Nat
  deriving DecidableEq, Repr

/-- Rules in normal form. Each list holds its latest member first. -/
structure NormalForm where
  /-- The name of every number, helpers included. -/
  names : Array String
  /-- How many numbers belong to nonterminals of the grammar. -/
  userCount : Nat
  lexicals : List LexicalRule
  pairs : List PairRule
  units : List UnitRule
  /-- The terminals that have a proxy, with its number. -/
  proxies : List (String × Nat)
  deriving DecidableEq, Repr

namespace NormalForm

/-- No rules yet: only the nonterminals, in the order given. -/
def ofNames (names : List String) : NormalForm :=
  { names := names.toArray, userCount := names.length
    lexicals := [], pairs := [], units := [], proxies := [] }

def addHelper (form : NormalForm) (name : String) : Nat × NormalForm :=
  (form.names.size, { form with names := form.names.push name })

/-- The proxy of a terminal: the one it has, or a new one that derives just this label. -/
def proxyFor (form : NormalForm) (label : String) : Nat × NormalForm :=
  match form.proxies.lookup label with
  | some id => (id, form)
  | none =>
      let (id, form) := form.addHelper ("<" ++ label ++ ">")
      (id, { form with
        lexicals := ⟨label, id⟩ :: form.lexicals
        proxies := (label, id) :: form.proxies })

/-- Turns every symbol into a number, terminals into their proxies, from left to right. -/
def number (form : NormalForm) : List Atom → List Nat × NormalForm
  | [] => ([], form)
  | .nonterminal id :: rest =>
      let (ids, form) := form.number rest
      (id :: ids, form)
  | .terminal label :: rest =>
      let (id, form) := form.proxyFor label
      let (ids, form) := form.number rest
      (id :: ids, form)

/-- Splits a body of two or more numbers into pairs. Every symbol before the last two
    leaves the rest of the body to a new helper named after the owner of the rule. -/
def addChain (form : NormalForm) (owner : String) (head : Nat) : List Nat → NormalForm
  | [] | [_] => form
  | [left, right] => { form with pairs := ⟨left, right, head⟩ :: form.pairs }
  | left :: rest =>
      let (tail, form) := form.addHelper (owner ++ "#" ++ toString form.names.size)
      let form := { form with pairs := ⟨left, tail, head⟩ :: form.pairs }
      form.addChain owner tail rest

/-- Adds one rule of the nonterminal numbered `head`. An empty body adds nothing. -/
def addRule (form : NormalForm) (head : Nat) : List Atom → NormalForm
  | [] => form
  | [.terminal label] => { form with lexicals := ⟨label, head⟩ :: form.lexicals }
  | [.nonterminal child] => { form with units := ⟨head, child⟩ :: form.units }
  | [.nonterminal left, .nonterminal right] =>
      { form with pairs := ⟨left, right, head⟩ :: form.pairs }
  | body =>
      let (ids, form) := form.number body
      form.addChain (form.names.getD head "") head ids

/-- The symbols of a body, given the names of the nonterminals in the order of their numbers. -/
def atoms (names : List String) (body : Rule) : List Atom :=
  body.map fun name =>
    match names.idxOf? name with
    | some id => .nonterminal id
    | none => .terminal name

/-- All rules of the grammar, in the order of its listing. -/
def ofGrammar (g : Grammar) : NormalForm :=
  let names := g.nonterminals
  g.listing.foldl
    (fun form p => form.addRule (names.idxOf p.nonterminal) (atoms names p.body))
    (ofNames names)

end NormalForm

end WordWalk
