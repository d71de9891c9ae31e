import WordWalk.Document.Load
import WordWalk.Findings
import WordWalk.Log
import WordWalk.Options
import WordWalk.Search.Basic

/-! # A run

A run opens its log, checks both input files, loads the grammar and then the graph,
searches, and delivers the results. It tells the log what it does as it does it, and the
first fault ends it without results.
-/

namespace WordWalk

inductive RunError where
  | invalidPath (message : String)
  | load (why : LoadError)
  | grammar (why : BuildError)
  | output (why : OsFault)
  deriving Repr

def RunError.message : RunError → String
  | invalidPath message => "Invalid file path: " ++ message
  | load why => why.message
  | grammar why => "Grammar error: " ++ why.message
  | output why => "File I/O error: " ++ why.text

/-- The code that a process ends with after a run. -/
def exitCode (succeeded : Bool) : UInt32 := if succeeded then 0 else 1

/-- The query that the options ask of a graph and an index. A quiet run traces nothing. -/
def Options.query (o : Options) (graph : Graph) (index : Index) : Query :=
  { graph, index, source := o.source, target := o.target, limits := o.limits
    traced := o.trace && !o.quiet }

/-- What a query has found out at the end of its search. -/
def Query.findings (q : Query) (final : Progress) : Findings :=
  { source := q.source, target := q.target, report := q.reportOn final
    reachable := .ofTree (q.graph.reachableFrom q.source) }

/-- What the log is told of a search and its findings. -/
def Query.logLines (q : Query) (final : Progress) (findings : Findings) : List LogLine :=
  let report := findings.report
  let events := if q.traced then Query.eventsOf final else []
  [.plain ["\n[STEP 3] Searching paths from '", q.source, "' to '", q.target, "'..."]] ++
    events.map (fun event => .plain ("   " :: event.parts)) ++
    [.plain ["   => Expanded ", toString report.expanded, " state(s), found ",
      toString report.routes.length, " valid path(s)."]] ++
    report.warnings.map (fun warning => .fault warning.parts) ++
    [.plain ["\n[STEP 4] Computing nodes reachable from '", q.source, "'..."],
      .plain ["   => ", toString findings.reachable.size, " node(s) reachable."]]

def Findings.warningText (f : Findings) : String :=
  String.join (f.report.warnings.map fun w => s!"Warning: {w.text}\n")

/-- Work that tells a log and may fail. -/
abbrev Attempt (m : Type → Type) [Files m] := ExceptT RunError (Recorded m)

section Files

variable {m : Type → Type} [Monad m] [Files m]

def note (line : LogLine) : Attempt m Unit := ExceptT.lift (tell line)

/-- Refuses an input that is missing or not a file. -/
def checkInput (role path : String) : Attempt m Unit := do
  let refuse (message : String) : Attempt m Unit := do
    note (.fault ["Input Error: ", message])
    throw (.invalidPath message)
  match ← (Files.kind? path : m _) with
  | none => refuse s!"{role} file not found: {path}"
  | some .special => refuse s!"{role} path is not a file: {path}"
  | some .file => return

def prepareIndex (o : Options) : Attempt m Index := do
  note (.plain ["\n[STEP 1] Loading grammar from ", o.grammarFile, "..."])
  let contents ← (Files.readText o.grammarFile : m _)
  match loadWith parseGrammar o.grammarFile contents with
  | .error why => throw (.load why)
  | .ok grammar =>
      match Index.build o.policy grammar with
      | .error why =>
          note (.fault ("Grammar rejected: " :: why.parts))
          throw (.grammar why)
      | .ok index =>
          note (.plain ["   => ", toString index.ruleCount, " rule(s), ",
            toString index.nonterminalCount, " non-terminal(s) after normalization."])
          return index

def prepareGraph (o : Options) : Attempt m Graph := do
  note (.plain ["\n[STEP 2] Loading graph from ", o.graphFile, "..."])
  let contents ← (Files.readText o.graphFile : m _)
  match loadWith parseGraph o.graphFile contents with
  | .error why => throw (.load why)
  | .ok graph =>
      note (.plain ["   => ", toString graph.nodeCount, " node(s), ",
        toString graph.edgeCount, " edge(s)."])
      return graph

def explore (q : Query) : Recorded m Findings := do
  let final := q.final
  let findings := q.findings final
  tellAll (q.logLines final findings)
  say findings.warningText
  return findings

/-- Writes results through a writer that is given up afterwards. What still waits after a failure is then
    tried once more, come what may. -/
def finish (w : Writer m) (text : String) : m (Except OsFault Unit) := do
  match ← w.put text.toUTF8 with
  | (_, some why) => return .error why
  | (w, none) =>
      match ← w.flush with
      | (_, none) => return .ok ()
      | (w, some why) =>
          discard w.flush
          return .error why

/-- Writes results to a new or emptied file. -/
def writeResults (path text : String) : m (Except OsFault Unit) := do
  match ← Files.create path with
  | .error why => return .error why
  | .ok handle => finish { handle } text

/-- Delivers the results: to the output file, or else to standard output. -/
def deliver (o : Options) (text : String) : Attempt m Unit := do
  match o.outputFile with
  | none => (Files.print .output text : m _)
  | some path =>
      match ← (writeResults path text : m _) with
      | .error why => throw (.output why)
      | .ok () => note (.plain ["\n[INFO] Results written to ", path])

/-- From the input files to the results, delivered. -/
def analyse (o : Options) : Attempt m Unit := do
  checkInput "grammar" o.grammarFile
  checkInput "graph" o.graphFile
  let index ← prepareIndex o
  let graph ← prepareGraph o
  let findings ← ExceptT.lift (explore (o.query graph index))
  deliver o (findings.render o.json)

/-- Opens the log. A quiet run has none. -/
def Options.openLog (o : Options) : m (Option (Writer m)) :=
  if o.quiet then return none else WordWalk.openLog o.logFile

/-- The analysis from the first line of the log to the last. -/
def analyseRecorded (o : Options) : Recorded m (Except RunError Unit) := do
  tell (.plain ["Verbose logging initialized to ", o.logFile])
  let result ← (analyse o).run
  match result with
  | .ok () => pure ()
  | .error e => tell (.fault [e.message])
  closeLog o.logFile
  return result

/-- Carries out a run: whether it succeeds. -/
def perform (o : Options) : m Bool := do
  let (result, _) ← (analyseRecorded o).run (← o.openLog)
  match result with
  | .ok () => return true
  | .error e =>
      Files.print .error s!"Error: {e.message}\n"
      return false

end Files

end WordWalk
