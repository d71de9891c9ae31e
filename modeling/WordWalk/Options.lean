import WordWalk.Index.NormalForm
import WordWalk.Search.Report
import WordWalk.Text.Terminal

/-! # Command-line options

Arguments are taken from left to right. An option with a value keeps it, unchecked, until
the next known option or the end of the arguments; a fault of the option that comes next
is then seen before one of the value, but an argument that is not known at all wins over
both.
-/

namespace WordWalk

structure Options where
  graphFile : String := "graph.json"
  grammarFile : String := "cfg.json"
  source : String := "A"
  target : String := "E"
  maxLength : Option Nat := none
  maxStates : Nat := defaultMaxStates
  policy : Policy := .normalize
  /-- Results are written as a JSON document. -/
  json : Bool := false
  /-- Where results are written to, if not to standard output. -/
  outputFile : Option String := none
  /-- The log tells every step of the search. -/
  trace : Bool := false
  logFile : String := "cflpath.log"
  /-- No log is written. -/
  quiet : Bool := false
  deriving DecidableEq, Repr

def Options.limits (o : Options) : Limits := ⟨o.maxLength, some o.maxStates⟩

namespace CommandLine

inductive Valued where
  | graph
  | grammar
  | start
  | finish
  | maxPathLen
  | maxStates
  | output
  | logFile
  deriving DecidableEq, Repr

inductive Flag where
  | strictGrammar
  | json
  | trace
  | quiet
  | help
  | version
  deriving DecidableEq, Repr

inductive Opt where
  | valued (v : Valued)
  | flag (f : Flag)
  deriving DecidableEq, Repr

def Valued.name : Valued → String
  | graph => "graph"
  | grammar => "grammar"
  | start => "start"
  | finish => "end"
  | maxPathLen => "max-path-len"
  | maxStates => "max-states"
  | output => "output"
  | logFile => "log-file"

def Valued.placeholder : Valued → String
  | graph | grammar | output | logFile => "FILE"
  | start | finish => "NODE"
  | maxPathLen | maxStates => "N"

def Flag.name : Flag → String
  | strictGrammar => "strict-grammar"
  | json => "json"
  | trace => "trace"
  | quiet => "quiet"
  | help => "help"
  | version => "version"

def Opt.usage : Opt → String
  | valued v => s!"--{v.name} <{v.placeholder}>"
  | flag f => s!"--{f.name}"

/-- All options, in the order in which they are explained. -/
def Opt.all : List Opt :=
  [.valued .graph, .valued .grammar, .valued .start, .valued .finish, .valued .maxPathLen,
    .valued .maxStates, .flag .strictGrammar, .flag .json, .valued .output, .flag .trace,
    .valued .logFile, .flag .quiet, .flag .help, .flag .version]

def Opt.name : Opt → String
  | valued v => v.name
  | flag f => f.name

def Opt.letter? : Opt → Option Char
  | valued .output => some 'o'
  | flag .quiet => some 'q'
  | flag .help => some 'h'
  | flag .version => some 'V'
  | _ => none

def Opt.ofName? (name : String) : Option Opt := Opt.all.find? (·.name == name)

def Opt.ofLetter? (letter : Char) : Option Opt := Opt.all.find? (·.letter? == some letter)

inductive NumberFault where
  | empty
  | notDigit
  | tooLarge
  deriving DecidableEq, Repr

def NumberFault.text : NumberFault → String
  | empty => "cannot parse integer from empty string"
  | notDigit => "invalid digit found in string"
  | tooLarge => "number too large to fit in target type"

inductive UsageError where
  | unknownArgument (argument : String)
  | missingValue (option : Valued)
  | invalidValue (value : String) (option : Valued) (why : NumberFault)
  | repeated (option : Opt)
  | unexpectedValue (value : String) (flag : Flag)
  deriving DecidableEq, Repr

/-- The wording of a refusal. What was given is shown as a terminal would show it. -/
def UsageError.message : UsageError → String
  | unknownArgument argument => s!"error: unexpected argument '{visibleText argument}' found"
  | missingValue option =>
      s!"error: a value is required for '{(Opt.valued option).usage}' but none was supplied"
  | invalidValue value option why =>
      s!"error: invalid value '{visibleText value}' for '{(Opt.valued option).usage}': {why.text}"
  | repeated option => s!"error: the argument '{option.usage}' cannot be used multiple times"
  | unexpectedValue value flag =>
      s!"error: unexpected value '{visibleText value}' for '{(Opt.flag flag).usage}' found" ++
        "; no more were expected"

/-- Why no run takes place. -/
inductive Halt where
  | refused (why : UsageError)
  | help
  | version
  deriving DecidableEq, Repr

def maxNumber : Nat := UInt64.size - 1

/-- Reads digits. Each has to be one, and then to keep the number within its bound. -/
def digitsFrom (n : Nat) : List Char → Except NumberFault Nat
  | [] => .ok n
  | d :: rest =>
      if !d.isDigit then .error .notDigit
      else
        let next := n * 10 + (d.toNat - '0'.toNat)
        if maxNumber < next then .error .tooLarge else digitsFrom next rest

/-- Reads a number, which may have a plus sign. -/
def number (value : String) : Except NumberFault Nat :=
  match value.toList with
  | [] => .error .empty
  | ['+'] => .error .notDigit
  | '+' :: rest => digitsFrom 0 rest
  | rest => digitsFrom 0 rest

structure Taken where
  options : Options := {}
  /-- The options that have been given. -/
  given : List Opt := []
  /-- An option that waits for its value, or whose value waits to be checked. -/
  pending : Option (Valued × Option String) := none

namespace Taken

/-- Notes that an option is given, which may happen once. -/
def give (t : Taken) (o : Opt) : Except Halt Taken :=
  if o ∈ t.given then .error (.refused (.repeated o)) else .ok { t with given := o :: t.given }

/-- Takes the name of a file, which cannot be empty. -/
def fileName (v : Valued) (value : String) : Except Halt String :=
  if value = "" then .error (.refused (.missingValue v)) else .ok value

def count (v : Valued) (value : String) : Except Halt Nat :=
  (number value).mapError fun why => .refused (.invalidValue value v why)

def set (o : Options) (v : Valued) (value : String) : Except Halt Options := do
  match v with
  | .graph => return { o with graphFile := ← fileName v value }
  | .grammar => return { o with grammarFile := ← fileName v value }
  | .start => return { o with source := value }
  | .finish => return { o with target := value }
  | .maxPathLen => return { o with maxLength := some (← count v value) }
  | .maxStates => return { o with maxStates := ← count v value }
  | .output => return { o with outputFile := some (← fileName v value) }
  | .logFile => return { o with logFile := ← fileName v value }

def accept (t : Taken) (v : Valued) (value : String) : Except Halt Taken := do
  let t ← t.give (.valued v)
  return { t with options := ← set t.options v value }

/-- Checks the option that is pending. -/
def settle (t : Taken) : Except Halt Taken :=
  match t.pending with
  | none => .ok t
  | some (v, none) => .error (.refused (.missingValue v))
  | some (v, some value) => { t with pending := none }.accept v value

def flag (t : Taken) (f : Flag) : Except Halt Taken := do
  let t ← t.settle
  match f with
  | .help => .error .help
  | .version => .error .version
  | .strictGrammar => return { ← t.give (.flag f) with options.policy := .strict }
  | .json => return { ← t.give (.flag f) with options.json := true }
  | .trace => return { ← t.give (.flag f) with options.trace := true }
  | .quiet => return { ← t.give (.flag f) with options.quiet := true }

/-- Accepts an option whose value is attached to it, or still to come. -/
def option (t : Taken) (v : Valued) (attached : Option String) : Except Halt Taken := do
  let t ← t.settle
  match attached with
  | some value => t.accept v value
  | none => return { t with pending := some (v, none) }

/-- Takes an argument that starts with two dashes, which are left out here. -/
def long (t : Taken) (body : List Char) : Except Halt Taken :=
  let name := String.ofList (body.takeWhile (· != '='))
  let attached := match body.dropWhile (· != '=') with
    | [] => none
    | _ :: value => some (String.ofList value)
  match Opt.ofName? name, attached with
  | none, _ => .error (.refused (.unknownArgument ("--" ++ name)))
  | some (.valued v), attached => t.option v attached
  | some (.flag f), none => t.flag f
  | some (.flag f), some value => .error (.refused (.unexpectedValue value f))

/-- Takes letters that follow a single dash. The first one with a value takes the rest. -/
def letters (t : Taken) : List Char → Except Halt Taken
  | [] => .ok t
  | c :: rest =>
      match Opt.ofLetter? c with
      | none => .error (.refused (.unknownArgument (String.ofList ['-', c])))
      | some (.flag f) => do (← t.flag f).letters rest
      | some (.valued v) =>
          match rest with
          | [] => t.option v none
          | '=' :: value | value => t.option v (some (String.ofList value))

/-- Takes an argument that is not an option: the value of the one before it, or nothing
    that is known. -/
def plain (t : Taken) (argument : String) : Except Halt Taken :=
  match t.pending with
  | some (v, none) => .ok { t with pending := some (v, some argument) }
  | _ => .error (.refused (.unknownArgument argument))

/-- Takes all arguments. After two dashes alone no argument is known any more. -/
def arguments (t : Taken) : List String → Except Halt Taken
  | [] => t.settle
  | argument :: rest =>
      match argument.toList with
      | ['-', '-'] =>
          match rest with
          | [] => t.settle
          | unknown :: _ => .error (.refused (.unknownArgument unknown))
      | '-' :: '-' :: body => do (← t.long body).arguments rest
      | '-' :: c :: body => do (← t.letters (c :: body)).arguments rest
      | _ => do (← t.plain argument).arguments rest

end Taken

/-- The options of a list of arguments, or why there is no run. -/
def parse (arguments : List String) : Except Halt Options :=
  (({} : Taken).arguments arguments).map (·.options)

end CommandLine

end WordWalk
