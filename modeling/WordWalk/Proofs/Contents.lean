import WordWalk.Proofs.Delivery
import WordWalk.Proofs.DiskLaws

/-! # What a run delivers

A run that succeeds has read two documents, and what it delivers is the rendering of what they say.
Its log cannot have been one of them, since nothing that a log is told begins like a document.
-/

namespace WordWalk

open FileView

section Runs

variable {σ : Type} [Files (StateM σ)] [FileView σ] [FileLaws σ] {o : Options} {s now e : σ}
  {path text : String} {grammar graph : Input}

/-! ## Successful runs -/

/-- The documents of a run that has results are not its log. -/
theorem inputs_apart (course : o.Course s grammar graph now) (results : o.resultsOf grammar graph = .ok text) :
    grammar.Same (input s o.grammarFile) ∧ graph.Same (input s o.graphFile) := by
  have files := (Options.resultsOf_eq_ok.mp results).1
  have rules : ¬ LogContents grammar.contents := fun log => Options.no_results_of_log (.inl log) results
  have edges : ¬ LogContents graph.contents := fun log => Options.no_results_of_log (.inr log) results
  exact ⟨course.rules.same (course.rules.apart files.1 rules),
    course.edges.same (course.edges.apart files.2 edges)⟩

theorem results_of_success (course : o.Course s grammar graph now) (done : (o.runOn s).1 = true) :
    ∃ text, o.resultsOf grammar graph = .ok text ∧ (o.delivered now text).1 = .ok () := by
  have result := course.result.symm.trans ((run_cases o s).2.1.mp done)
  cases results : o.resultsOf grammar graph with
  | error why =>
      rw [results] at result
      cases result
  | ok text =>
      rw [results] at result
      exact ⟨text, rfl, result⟩

theorem displayed_before (course : o.Course s grammar graph now) (apart : o.logFile? s ≠ some standardOutput) :
    displayed now .output = displayed s .output :=
  ((o.differs_opened s).trans course.reached.differs).output apart

theorem regular_of_saved {f : File σ} (saved : Saved now path text f e) (course : o.Course s grammar graph now)
    (plain : kindAt? s path ≠ some .special) (apart : o.logFile? s ≠ some f) : kind f = .file := by
  have same : leads now path = leads s path := by
    refine ((o.differs_opened s).trans course.reached.differs).leads_eq fun g there log => ?_
    cases saved.place with
    | inl known =>
        cases known.symm.trans there
        exact apart log
    | inr new => cases new.1.symm.trans there
  exact regular_of_place saved.place (by rwa [kindAt?, same])

/-- A run that succeeds delivers the results that its documents have, and nothing else. The one
    thing that can spoil them is a log that goes to the same place. -/
theorem run_delivers (o : Options) (s : σ) (done : (o.runOn s).1 = true) :
    ∃ rules index edges,
      loadWith parseGrammar o.grammarFile (FileView.text s o.grammarFile) = .ok rules ∧
      Index.build o.policy rules = .ok index ∧
      loadWith parseGraph o.graphFile (FileView.text s o.graphFile) = .ok edges ∧
      let results := ((o.findings edges index).render o.json).toUTF8
      let after := (o.runOn s).2
      match o.outputFile with
      | none => o.logFile? s ≠ some standardOutput → displayed after .output = displayed s .output ++ results
      | some path =>
          (o.logFile? s ≠ some standardOutput → leads after path ≠ some standardOutput →
            displayed after .output = displayed s .output) ∧
          (kindAt? s path ≠ some .special → o.logFile? s ≠ leads after path →
            octets? after path = some results) := by
  obtain ⟨grammar, graph, now, course⟩ := run_course o s
  obtain ⟨text, results, delivered⟩ := results_of_success course done
  have same := inputs_apart course results
  have left := course.left
  rw [results, Options.concluded] at left
  rw [o.resultsOf_same same.1 same.2] at results
  obtain ⟨-, rules, index, edges, loaded, built, loaded', rfl⟩ := Options.resultsOf_eq_ok.mp results
  refine ⟨rules, index, edges, loaded, built, loaded', ?_⟩
  dsimp only
  unfold Options.delivered at delivered left
  cases output : o.outputFile with
  | none =>
      rw [output] at left
      intro apart
      rw [left.output apart, (FileLaws.print_output now _).2, displayed_before course apart]
  | some path =>
      rw [output] at delivered left
      dsimp only at delivered left
      rcases written : (writeResults path ((o.findings edges index).render o.json) : StateM σ _) now with
        ⟨_ | _, between⟩
      · rw [written] at delivered
        cases delivered
      · rw [written] at left
        obtain ⟨f, saved⟩ := saved_of_writeResults written
        have there : leads (o.runOn s).2 path = some f := (left.leads path).trans saved.leads
        dsimp only
        rw [there]
        refine ⟨fun apart elsewhere => ?_, fun plain apart => ?_⟩
        · have other : standardOutput ∉ ({f} : Set (File σ)) := fun mem => elsewhere (congrArg some mem.symm)
          rw [left.output apart, saved.differs.output other, displayed_before course apart]
        · have regular := regular_of_saved saved course plain apart
          rw [octets?_of_leads there regular, left.contents f apart, saved.contents regular]

end Runs

/-- A disk with a grammar without rules and a graph of one node, at the usual paths. -/
def Disk.small : Disk :=
  ((∅ : Disk).addFile "cfg.json" "\x7b\"S\": []\x7d".toUTF8).addFile "graph.json" "\x7b\"A\": []\x7d".toUTF8

def smallResults : String := "No valid paths found.\n\nNodes reachable from A : \x7bA\x7d\n"

theorem run_delivers_small :
    let o : Options := { outputFile := some "out.txt" }
    let after := (o.runOn Disk.small).2
    (o.runOn Disk.small).1 = true ∧ displayed after .output = displayed Disk.small .output ∧
      ∃ results : String, octets? after "out.txt" = some results.toUTF8 := by
  intro o after
  have done : (o.runOn Disk.small).1 = true := by decide +kernel
  obtain ⟨rules, index, edges, -, -, -, quiet, saved⟩ := run_delivers o Disk.small done
  have leads : leads after "out.txt" = some (Node.file ["home", "user", "out.txt"]) := by decide +kernel
  have log : o.logFile? Disk.small = some (Node.file ["home", "user", "cflpath.log"]) := by decide +kernel
  refine ⟨done, quiet ?_ ?_, _, saved ?_ ?_⟩
  · rw [log]
    decide
  · rw [leads]
    decide
  · decide +kernel
  · rw [log, leads]
    decide

/-- If the log goes to the output file, the results are overwritten and the run succeeds all the same. -/
theorem results_under_log :
    let o : Options := { outputFile := some "cflpath.log" }
    (o.runOn Disk.small).1 = true ∧ kindAt? Disk.small "cflpath.log" = none ∧
      o.resultsOf (input Disk.small o.grammarFile) (input Disk.small o.graphFile) = .ok smallResults ∧
      octets? (o.runOn Disk.small).2 "cflpath.log" ≠ some smallResults.toUTF8 := by
  refine ⟨by decide +kernel, by decide +kernel, toOption_eq_some.mp (by decide +kernel), ?_⟩
  intro same
  exact absurd (congrArg (Option.map ByteArray.size) same) (by decide +kernel)

end WordWalk
