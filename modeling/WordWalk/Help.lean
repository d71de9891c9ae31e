import WordWalk.Options

/-! # Help

The text that explains the options, and what follows a refusal of arguments.
-/

namespace WordWalk.CommandLine

def Valued.purpose : Valued → String
  | graph => "JSON file mapping each node to its [neighbor, label] edges"
  | grammar => "JSON file mapping each non-terminal to its production rules (must define S)"
  | start => "Node the search starts from"
  | finish => "Node the search must end at"
  | maxPathLen => "Do not explore label sequences longer than this"
  | maxStates => "Stop after expanding this many distinct search states"
  | output => "Write results to this file instead of standard output"
  | logFile => "Verbose log file"

def Flag.purpose : Flag → String
  | strictGrammar => "Reject grammars outside binary normal form instead of normalizing them"
  | json => "Print results as a JSON document"
  | trace => "Record every exploration step and chart update in the log"
  | quiet => "Suppress verbose output, only printing results or errors"
  | help => "Print help"
  | version => "Print version"

def Valued.default? (v : Valued) : Option String :=
  let o : Options := {}
  match v with
  | .graph => some o.graphFile
  | .grammar => some o.grammarFile
  | .start => some o.source
  | .finish => some o.target
  | .maxPathLen => o.maxLength.map toString
  | .maxStates => some (toString o.maxStates)
  | .output => o.outputFile
  | .logFile => some o.logFile

def Opt.explanation : Opt → String
  | flag f => f.purpose
  | valued v =>
      v.purpose ++ match v.default? with
        | some value => s!" [default: {value}]"
        | none => ""

def Opt.spelling (o : Opt) : String :=
  (match o.letter? with
    | some letter => String.ofList ['-', letter, ',', ' ']
    | none => "    ") ++ o.usage

def padded (width : Nat) (text : String) : String :=
  text ++ String.ofList (List.replicate (width - text.length) ' ')

def synopsis : String := "Usage: wordwalk [OPTIONS]"

def helpText : String :=
  let width := (Opt.all.map (·.spelling.length)).foldl max 0
  let lines := Opt.all.map fun o => "  " ++ padded width o.spelling ++ "  " ++ o.explanation ++ "\n"
  s!"Finds graph paths whose edge labels spell a word of a context-free grammar.\n\n{synopsis}\n\n"
    ++ "Options:\n" ++ String.join lines

def versionText : String := "wordwalk 0.1.0\n"

def UsageError.report (e : UsageError) : String :=
  s!"{e.message}\n\n{synopsis}\n\nFor more information, try '--help'.\n"

end WordWalk.CommandLine
