import WordWalk.Proofs.Contents

/-! # The checks of a run

A run fails at the first of its checks that fails. Each check is a question of its own about what is found
at the paths of the options, and together they leave nothing else that could fail.
-/

namespace WordWalk

open FileView

inductive Check where
  | grammarPath
  | graphPath
  | grammarText
  | grammarJson
  | grammarShape
  | grammarRules
  | graphText
  | graphJson
  | output
  deriving DecidableEq, Repr

/-- All checks, in the order in which they are made. -/
def Check.all : List Check :=
  [.grammarPath, .graphPath, .grammarText, .grammarJson, .grammarShape, .grammarRules, .graphText, .graphJson,
    .output]

theorem Check.mem_all (check : Check) : check ∈ all := by
  cases check <;> simp [all]

/-- The fault that something failed with. -/
def faultOf {ε α : Type} : Except ε α → Option ε
  | .error e => some e
  | .ok _ => none

variable {σ : Type} [Files (StateM σ)]

namespace Options

variable (o : Options)

/-- The fault that a check finds, given the inputs and the system that the results are written in. What has
    nothing to look at finds none. -/
def fault? (grammar graph : Input) (now : σ) : Check → Option RunError
  | .grammarPath => faultOf (admitted "grammar" o.grammarFile grammar.kind)
  | .graphPath => faultOf (admitted "graph" o.graphFile graph.kind)
  | .grammarText => faultOf (grammar.contents.mapError fun why => .load (.unreadable o.grammarFile why))
  | .grammarJson => do
      let text ← grammar.contents.toOption
      faultOf ((Json.parse text).mapError fun why => .load (.parse o.grammarFile why))
  | .grammarShape => do
      let text ← grammar.contents.toOption
      let value ← (Json.parse text).toOption
      faultOf ((Grammar.ofJson value).mapError fun why => .load (.grammar o.grammarFile why))
  | .grammarRules => do
      let text ← grammar.contents.toOption
      let rules ← (parseGrammar o.grammarFile text).toOption
      faultOf ((Index.build o.policy rules).mapError .grammar)
  | .graphText => faultOf (graph.contents.mapError fun why => .load (.unreadable o.graphFile why))
  | .graphJson => do
      let text ← graph.contents.toOption
      faultOf ((parseGraph o.graphFile text).mapError .load)
  | .output => do
      let text ← (o.resultsOf grammar graph).toOption
      faultOf (o.delivered now text).1

theorem findSome?_fault (grammar graph : Input) (now : σ) :
    Check.all.findSome? (o.fault? grammar graph now) =
      faultOf (o.concluded now (o.resultsOf grammar graph)).1 := by
  obtain ⟨grammarKind, grammar⟩ := grammar
  obtain ⟨graphKind, graph⟩ := graph
  cases grammarKind with
  | none => rfl
  | some kind =>
  cases kind with
  | special => rfl
  | file =>
  cases graphKind with
  | none => rfl
  | some kind =>
  cases kind with
  | special => rfl
  | file =>
  cases grammar with
  | error why => rfl
  | ok text =>
  simp only [Check.all, List.findSome?_cons, fault?, resultsOf, indexOf, graphOf, loadWith, parseGrammar, admitted,
    faultOf, Except.toOption, Except.mapError, bind, Except.bind, Option.bind]
  cases Json.parse text with
  | error why => rfl
  | ok value =>
  dsimp only
  cases Grammar.ofJson value with
  | error why => rfl
  | ok rules =>
  dsimp only
  cases Index.build o.policy rules with
  | error why => rfl
  | ok index =>
  cases graph with
  | error why => rfl
  | ok text =>
  dsimp only
  cases parseGraph o.graphFile text with
  | error why => rfl
  | ok edges =>
  dsimp only [concluded, pure, Except.pure]
  cases (o.delivered now ((o.findings edges index).render o.json)).1 with
  | error why => rfl
  | ok done => rfl

/-- All checks are passed where there are results and they can be delivered. -/
theorem sound_iff (grammar graph : Input) (now : σ) :
    (∀ check, o.fault? grammar graph now check = none) ↔
      ∃ text, o.resultsOf grammar graph = .ok text ∧ (o.delivered now text).1 = .ok () := by
  have verdict := o.findSome?_fault grammar graph now
  have all : (∀ check, o.fault? grammar graph now check = none) ↔
      Check.all.findSome? (o.fault? grammar graph now) = none := by
    rw [List.findSome?_eq_none_iff]
    exact ⟨fun sound check _ => sound check, fun sound check => sound check check.mem_all⟩
  rw [all, verdict]
  cases o.resultsOf grammar graph with
  | error why => simp [concluded, faultOf]
  | ok text => cases result : (o.delivered now text).1 <;> simp [concluded, result, faultOf]

theorem fault?_of_results {o : Options} {grammar graph : Input} {now : σ} {text : String} {check : Check}
    (results : o.resultsOf grammar graph = .ok text) (other : check ≠ .output) :
    o.fault? grammar graph now check = none := by
  obtain ⟨⟨rules, edges⟩, g, index, h, loaded, built, loaded', -⟩ := resultsOf_eq_ok.mp results
  obtain ⟨first, read, parsed⟩ := bind_eq_ok.mp loaded
  obtain ⟨second, read', parsed'⟩ := bind_eq_ok.mp loaded'
  obtain ⟨value, json, shape⟩ := bind_eq_ok.mp parsed
  rw [mapError_eq_ok] at read read' json shape
  cases check
  case output => exact absurd rfl other
  case grammarPath => rw [fault?, rules]; rfl
  case graphPath => rw [fault?, edges]; rfl
  case grammarText => rw [fault?, read]; rfl
  case grammarJson => simp [fault?, read, json, Except.toOption, Except.mapError, faultOf]
  case grammarShape => simp [fault?, read, json, shape, Except.toOption, Except.mapError, faultOf]
  case grammarRules => simp [fault?, read, parsed, built, Except.toOption, Except.mapError, faultOf]
  case graphText => rw [fault?, read']; rfl
  case graphJson => simp [fault?, read', parsed', Except.toOption, Except.mapError, faultOf]

end Options

/-! ## Inputs once the log has been opened -/

variable [FileView σ] [FileLaws σ] {o : Options} {s now : σ} {path text : String} {grammar graph : Input}

theorem logContents_opened {f : File σ} (log : o.logFile? s = some f) (regular : kind f = .file)
    (there : leads (o.opened s) path = some f) : LogContents (FileView.text (o.opened s) path) := by
  intro text read
  rw [text_of_leads there regular] at read
  obtain ⟨w, -, -, empty, -⟩ := Options.unused_opened log regular
  exact logText_of_octets (.inl ((octets_of_reading read).symm.trans empty))

/-- An input is the same when it is read as it was once the log had been opened, or it is text of the log. -/
theorem Options.Finds.same_or_log {i : Input} (found : o.Finds s path i) :
    i.Same (input (o.opened s) path) ∨
      LogContents i.contents ∧ LogContents (FileView.text (o.opened s) path) := by
  by_cases file : kindAt? (o.opened s) path = some .file
  · obtain ⟨f, there, regular⟩ := Option.map_eq_some_iff.mp file
    cases found.contents f there regular with
    | inl same => exact .inl ⟨found.kind, fun _ => same.1⟩
    | inr log => exact .inr ⟨log.2, logContents_opened log.1 regular there⟩
  · exact .inl ⟨found.kind, fun regular => absurd regular file⟩

theorem results_opened (rules : o.Finds s o.grammarFile grammar) (edges : o.Finds s o.graphFile graph) :
    o.resultsOf grammar graph = .ok text ↔
      o.resultsOf (input (o.opened s) o.grammarFile) (input (o.opened s) o.graphFile) = .ok text := by
  cases rules.same_or_log with
  | inr logs =>
      exact iff_of_false (Options.no_results_of_log (.inl logs.1)) (Options.no_results_of_log (.inl logs.2))
  | inl same =>
      cases edges.same_or_log with
      | inr logs =>
          exact iff_of_false (Options.no_results_of_log (.inr logs.1)) (Options.no_results_of_log (.inr logs.2))
      | inl same' => rw [o.resultsOf_same same same']

/-! ## Runs -/

/-- A run fails exactly if one of its checks fails, with the fault of the first one that does, and ends with
    code 1. If that was not the last one, its log is the only file that has been made or changed, and no results
    have been printed. The inputs are as they were once the log had been opened, except that there may be text of
    the log in the file of the log itself. Whether all checks are passed does not depend on that. -/
theorem run_fails_first (o : Options) (s : σ) :
    ∃ grammar graph now, o.Finds s o.grammarFile grammar ∧ o.Finds s o.graphFile graph ∧
      Alike (o.logFiles s) (o.opened s) now ∧
      let before := o.opened s
      let after := (o.runOn s).2
      let fault := o.fault? grammar graph now
      let faultBefore := o.fault? (input before o.grammarFile) (input before o.graphFile) now
      ((o.runOn s).1 = true ↔ ∀ check, fault check = none) ∧
      ((o.runOn s).1 = true ↔ ∀ check, faultBefore check = none) ∧
      ∀ i check e, FirstFailing (fault · = none) Check.all i check → fault check = some e →
        (o.runOn s).1 = false ∧ exitCode (o.runOn s).1 = 1 ∧
        (∃ said, displayed after .error = said ++ s!"Error: {e.message}\n".toUTF8) ∧
        (check ≠ .output →
          Differs (o.logFiles s) s after ∧
            (o.logFile? s ≠ some standardOutput → displayed after .output = displayed s .output)) := by
  obtain ⟨grammar, graph, now, course⟩ := run_course o s
  obtain ⟨-, success, failure⟩ := run_cases o s
  refine ⟨grammar, graph, now, course.rules, course.edges, course.reached, ?_⟩
  intro before after fault faultBefore
  have verdict : faultOf (o.resultOn s) = Check.all.findSome? fault := by
    rw [course.result]
    exact (o.findSome?_fault grammar graph now).symm
  have sound : (o.runOn s).1 = true ↔ ∀ check, fault check = none := by
    rw [success, o.sound_iff, course.result]
    cases o.resultsOf grammar graph <;> simp [Options.concluded]
  refine ⟨sound, ?_, fun i check e first failing => ?_⟩
  · rw [sound, o.sound_iff, o.sound_iff]
    exact exists_congr fun text => and_congr_left fun _ => results_opened course.rules course.edges
  · have found := verdict.trans (findSome?_eq_some.mpr ⟨i, check, first, failing⟩)
    have result : o.resultOn s = .error e := by
      cases ended : o.resultOn s with
      | ok => rw [ended] at found; cases found
      | error why => rw [ended] at found; rw [Option.some.inj found]
    have fails : (o.runOn s).1 = false := by
      rw [Bool.eq_false_iff, ne_eq, success, result]
      intro none
      cases none
    refine ⟨fails, by rw [fails]; rfl, failure e result, fun other => ?_⟩
    have unchanged : Differs (o.logFiles s) s after := by
      have left := course.left
      cases results : o.resultsOf grammar graph with
      | error why =>
          rw [results] at left
          exact ((o.differs_opened s).trans course.reached.differs).trans left.differs
      | ok text => cases failing.symm.trans (Options.fault?_of_results results other)
    exact ⟨unchanged, unchanged.output⟩

/-- A run without a graph does not touch an output file. -/
theorem missing_graph :
    let o : Options := { graphFile := "missing.json", outputFile := some "out.txt" }
    let after := (o.runOn Disk.small).2
    (o.runOn Disk.small).1 = false ∧ Differs (o.logFiles Disk.small) Disk.small after ∧
      ∃ said, displayed after .error =
        said ++ "Error: Invalid file path: graph file not found: missing.json\n".toUTF8 := by
  intro o after
  obtain ⟨grammar, graph, now, rules, edges, -, -, -, fails⟩ := run_fails_first o Disk.small
  have first : grammar.kind = some .file := rules.kind.trans (by decide +kernel)
  have second : graph.kind = none := edges.kind.trans (by decide +kernel)
  have fault : o.fault? grammar graph now .graphPath =
      some (.invalidPath "graph file not found: missing.json") := by
    rw [Options.fault?, second]
    rfl
  have failing : FirstFailing (o.fault? grammar graph now · = none) Check.all 1 .graphPath := by
    refine ⟨rfl, by rw [fault]; exact Option.some_ne_none _, fun j less check placed => ?_⟩
    obtain rfl : j = 0 := Nat.lt_one_iff.mp less
    cases placed
    rw [Options.fault?, first]
    rfl
  obtain ⟨failed, -, said, kept⟩ := fails 1 .graphPath _ failing fault
  exact ⟨failed, (kept nofun).1, said⟩

end WordWalk
