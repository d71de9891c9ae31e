import WordWalk.Proofs.Contents

/-! # Runs that tell more or less

How much a run tells its log, and where, makes no difference to its results: as long as the log goes
neither to one of the files that the run is about nor to standard output, two runs that differ in this
alone end alike and leave the same contents, also if a log cannot be opened or written. What a log takes up is
missed only where there is too little room for the results.
-/

namespace WordWalk

open FileView

variable {σ : Type} [Files (StateM σ)] [FileView σ]

namespace Options

def paths (o : Options) : List String := o.grammarFile :: o.graphFile :: o.outputFile.toList

theorem mem_paths_of_output {o : Options} {path : String} (output : o.outputFile = some path) :
    path ∈ o.paths := by
  simp [paths, output]

/-- The log goes neither to one of the files that the run is about nor to standard output. -/
structure LogApart (o : Options) (s : σ) : Prop where
  files : ∀ path ∈ o.paths, ∀ f ∈ leads (o.opened s) path, o.logFile? s ≠ some f
  output : o.logFile? s ≠ some standardOutput

/-- There was too little room for the results in the output file. -/
def RanOut (o : Options) (s : σ) : Prop :=
  o.resultOn s = .error (.output .noSpace) ∧ ∃ path ∈ o.outputFile, kindAt? s path ≠ some .special

/-- What the results of a run go to, if it is there already. -/
def target? (o : Options) (s : σ) : Option (File σ) :=
  match o.outputFile with
  | none => some standardOutput
  | some path => leads s path

/-- The text of the results, or the first fault, of a run whose log goes elsewhere. -/
def results (o : Options) (s : σ) : Except RunError String :=
  o.resultsOf (input s o.grammarFile) (input s o.graphFile)

end Options

/-- A run whose log goes elsewhere, seen from the system in which its results are delivered. -/
structure Undisturbed (o : Options) (s now : σ) : Prop where
  differs : Differs (o.logFiles s) s now
  apart : ∀ path ∈ o.paths, ∀ f ∈ leads now path, f ∉ o.logFiles s
  known : ∀ f ∈ o.logFiles s, leads now o.logFile = some f
  output : standardOutput ∉ o.logFiles s
  result : o.resultOn s = (o.concluded now (o.results s)).1
  left : Alike (o.logFiles s) (o.concluded now (o.results s)).2 (o.runOn s).2

variable {o o' : Options} {s now now' e : σ} {path text : String}

namespace Undisturbed

variable (h : Undisturbed o s now)
include h

theorem leads_eq (mem : path ∈ o.paths) : leads now path = leads s path := h.differs.leads_eq (h.apart path mem)

theorem kindAt?_eq (mem : path ∈ o.paths) : kindAt? now path = kindAt? s path :=
  congrArg (Option.map kind) (h.leads_eq mem)

theorem writable_iff (mem : path ∈ o.paths) : writable now path ↔ writable s path :=
  h.differs.writable path (h.leads_eq mem)

theorem octets?_still (mem : path ∈ o.paths) (left : Alike (o.logFiles s) now e) :
    octets? e path = octets? s path := by
  refine (left.differs.octets? fun f there => h.apart path mem f ?_).trans (h.differs.octets? (h.apart path mem))
  exact (left.leads path).symm.trans there

theorem faulty {why : RunError} (results : o.results s = .error why) :
    o.resultOn s = .error why ∧ Alike (o.logFiles s) now (o.runOn s).2 := by
  have result := h.result
  have left := h.left
  rw [results] at result left
  exact ⟨result, left⟩

theorem printed (results : o.results s = .ok text) (output : o.outputFile = none) :
    o.resultOn s = .ok () ∧
      Alike (o.logFiles s) ((Files.print .output text : StateM σ _) now).2 (o.runOn s).2 := by
  have result := h.result
  have left := h.left
  rw [results, Options.concluded, Options.delivered, output] at result left
  exact ⟨result, left⟩

theorem saving (results : o.results s = .ok text) (output : o.outputFile = some path) :
    o.resultOn s = ((writeResults path text : StateM σ _) now).1.mapError .output ∧
      Alike (o.logFiles s) ((writeResults path text : StateM σ _) now).2 (o.runOn s).2 := by
  have result := h.result
  have left := h.left
  rw [results, Options.concluded, Options.delivered, output] at result left
  exact ⟨result, left⟩

end Undisturbed

variable [FileLaws σ]

theorem exists_undisturbed (apart : o.LogApart s) : ∃ now, Undisturbed o s now := by
  obtain ⟨grammar, graph, now, course⟩ := run_course o s
  have rules := course.rules.same (apart.files _ (by simp [Options.paths]))
  have edges := course.edges.same (apart.files _ (by simp [Options.paths]))
  have results : o.resultsOf grammar graph = o.results s := o.resultsOf_same rules edges
  refine ⟨now, ?_⟩
  constructor
  · exact (o.differs_opened s).trans course.reached.differs
  · exact fun path mem f there => apart.files path mem f ((course.reached.leads path).symm.trans there)
  · exact fun f log => (course.reached.leads _).trans (Options.leads_logFile log)
  · exact apart.output
  · exact results ▸ course.result
  · exact results ▸ course.left

theorem succeeded_congr (same : o.resultOn s = .ok () ↔ o'.resultOn s = .ok ()) :
    (o.runOn s).1 = (o'.runOn s).1 := by
  rw [Bool.eq_iff_iff, (run_cases o s).2.1, (run_cases o' s).2.1, same]

namespace Undisturbed

variable (h : Undisturbed o s now)
include h

theorem displayed_elsewhere (mem : path ∈ o.paths) (elsewhere : leads s path ≠ some standardOutput)
    (text : String) :
    displayed ((writeResults path text : StateM σ _) now).2 .output = displayed s .output := by
  obtain ⟨changed, differs, places⟩ := writeResults_differs path text now
  have apart : standardOutput ∉ changed := by
    intro mem'
    cases places _ mem' with
    | inl there => exact elsewhere ((h.leads_eq mem).symm.trans there)
    | inr fresh => exact fresh.notShown rfl
  exact (differs.output apart).trans (h.differs.output h.output)

omit [FileLaws σ] in
theorem octets?_saved {f : File σ} (mem : path ∈ o.paths) (saved : Saved now path text f e)
    (plain : kindAt? s path ≠ some .special) (left : Alike (o.logFiles s) e (o.runOn s).2) :
    octets? (o.runOn s).2 path = some text.toUTF8 := by
  have away : f ∉ o.logFiles s := by
    intro log
    cases saved.place with
    | inl there => exact h.apart path mem f there log
    | inr new => exact new.2.unknown _ (h.known f log)
  have regular := regular_of_place saved.place (h.kindAt?_eq mem ▸ plain)
  rw [octets?_of_leads ((left.leads path).trans saved.leads) regular, left.contents f away, saved.contents regular]

omit [FileLaws σ] in
theorem ranOut_iff (results : o.results s = .ok text) (output : o.outputFile = some path) :
    o.RanOut s ↔ ((writeResults path text : StateM σ _) now).1 = .error .noSpace ∧
      kindAt? s path ≠ some .special := by
  have full {r : Except OsFault Unit} : r.mapError RunError.output = .error (.output .noSpace) ↔
      r = .error .noSpace := by
    cases r <;> simp [Except.mapError]
  rw [Options.RanOut, (h.saving results output).1, full, output]
  simp

end Undisturbed

/-- What becomes of results that go to a regular file, if there is room for them. -/
structure Filed (o : Options) (s : σ) (path text : String) : Prop where
  success : o.resultOn s = .ok () ↔ ¬ o.RanOut s
  contents : ¬ o.RanOut s → octets? (o.runOn s).2 path = some text.toUTF8
  elsewhere : leads s path ≠ some standardOutput → displayed (o.runOn s).2 .output = displayed s .output
  shown : leads s path = some standardOutput → ¬ o.RanOut s →
    displayed (o.runOn s).2 .output = displayed s .output ++ text.toUTF8

theorem Undisturbed.filed (h : Undisturbed o s now) (results : o.results s = .ok text)
    (output : o.outputFile = some path) (plain : kindAt? s path ≠ some .special) (yes : writable s path) :
    Filed o s path text := by
  have mem := Options.mem_paths_of_output output
  obtain ⟨result, left⟩ := h.saving results output
  have ranOut := h.ranOut_iff results output
  have room := writeResults_room text ((h.writable_iff mem).mpr yes) (h.kindAt?_eq mem ▸ plain)
  have elsewhere := fun apart => h.displayed_elsewhere mem apart text
  rcases run : (writeResults path text : StateM σ _) now with ⟨r, e⟩
  rw [run] at result left ranOut room elsewhere
  have saved (enough : ¬ o.RanOut s) : ∃ f, Saved now path text f e := by
    cases room with
    | inl done =>
        cases done
        exact saved_of_writeResults run
    | inr full => exact absurd (ranOut.mpr ⟨full, plain⟩) enough
  constructor
  · rw [result, ranOut, and_iff_left plain]
    cases room with
    | inl done =>
        cases done
        exact iff_of_true rfl nofun
    | inr full =>
        cases full
        exact iff_of_false nofun (not_not_intro rfl)
  · intro enough
    obtain ⟨f, saved⟩ := saved enough
    exact h.octets?_saved mem saved plain left
  · intro apart
    rw [left.output h.output, elsewhere apart]
  · intro there enough
    obtain ⟨f, saved⟩ := saved enough
    have there := (h.leads_eq mem).trans there
    rw [left.output h.output, saved.output (saved.file_of_leads there), h.differs.output h.output]

/-! ## Two runs -/

/-- Two runs end alike, as far as room for the results is not wanting. -/
structure EndAlike (o o' : Options) (s : σ) : Prop where
  succeeded : (o.RanOut s ↔ o'.RanOut s) → (o.runOn s).1 = (o'.runOn s).1
  displayed : (∀ path ∈ o.outputFile, leads s path ≠ some standardOutput) ∨ ¬ o.RanOut s ∧ ¬ o'.RanOut s →
    FileView.displayed (o.runOn s).2 .output = FileView.displayed (o'.runOn s).2 .output
  contents : ¬ o.RanOut s → ¬ o'.RanOut s → ∀ path ∈ o.outputFile,
    octets? (o.runOn s).2 path = octets? (o'.runOn s).2 path

section Two

variable (h : Undisturbed o s now) (h' : Undisturbed o' s now')
include h h'

theorem endAlike_of_fault {why : RunError} (results : o.results s = .error why)
    (results' : o'.results s = .error why) (output : o'.outputFile = o.outputFile) : EndAlike o o' s := by
  obtain ⟨result, left⟩ := h.faulty results
  obtain ⟨result', left'⟩ := h'.faulty results'
  constructor
  · intro _
    exact succeeded_congr (by rw [result, result'])
  · intro _
    rw [left.output h.output, left'.output h'.output, h.differs.output h.output, h'.differs.output h'.output]
  · intro _ _ path out
    rw [h.octets?_still (Options.mem_paths_of_output out) left,
      h'.octets?_still (Options.mem_paths_of_output (output.trans out)) left']

theorem endAlike_of_print (results : o.results s = .ok text) (results' : o'.results s = .ok text)
    (output : o.outputFile = none) (output' : o'.outputFile = none) : EndAlike o o' s := by
  obtain ⟨result, left⟩ := h.printed results output
  obtain ⟨result', left'⟩ := h'.printed results' output'
  constructor
  · intro _
    exact succeeded_congr (by rw [result, result'])
  · intro _
    rw [left.output h.output, left'.output h'.output, (FileLaws.print_output now text).2,
      (FileLaws.print_output now' text).2, h.differs.output h.output, h'.differs.output h'.output]
  · intro _ _ path out
    rw [output] at out
    cases out

section Saving

variable (results : o.results s = .ok text) (results' : o'.results s = .ok text)
  (output : o.outputFile = some path) (output' : o'.outputFile = some path)
include results results' output output'

theorem endAlike_of_refusal (no : ¬ writable s path) : EndAlike o o' s := by
  have mem := Options.mem_paths_of_output output
  have mem' := Options.mem_paths_of_output output'
  obtain ⟨result, left⟩ := h.saving results output
  obtain ⟨result', left'⟩ := h'.saving results' output'
  obtain ⟨why, run⟩ := writeResults_refused text (mt (h.writable_iff mem).mp no)
  obtain ⟨why', run'⟩ := writeResults_refused text (mt (h'.writable_iff mem').mp no)
  rw [run] at result left
  rw [run'] at result' left'
  constructor
  · intro _
    refine succeeded_congr ?_
    rw [result, result']
    exact iff_of_false nofun nofun
  · intro _
    rw [left.output h.output, left'.output h'.output, h.differs.output h.output, h'.differs.output h'.output]
  · intro _ _ other out
    cases output.symm.trans out
    rw [h.octets?_still mem left, h'.octets?_still mem' left']

theorem endAlike_of_device {f : File σ} (device : kind f = .special) (there : leads s path = some f)
    (yes : writable s path) : EndAlike o o' s := by
  have mem := Options.mem_paths_of_output output
  have mem' := Options.mem_paths_of_output output'
  obtain ⟨result, left⟩ := h.saving results output
  obtain ⟨result', left'⟩ := h'.saving results' output'
  have now_there := (h.leads_eq mem).trans there
  have now_there' := (h'.leads_eq mem').trans there
  obtain ⟨same, octets, grown⟩ := writeResults_device text device now_there now_there'
    ((h.writable_iff mem).mpr yes) ((h'.writable_iff mem').mpr yes)
  have nothing {now e : σ} {hidden : Set (File σ)} (before : leads now path = some f)
      (left : Alike hidden ((writeResults path text : StateM σ _) now).2 e) : octets? e path = none := by
    obtain ⟨changed, differs, -⟩ := writeResults_differs path text now
    exact octets?_of_device ((left.leads path).trans (differs.known before)) device
  constructor
  · intro _
    exact succeeded_congr (by rw [result, result', same])
  · intro _
    rw [left.output h.output, left'.output h'.output]
    by_cases elsewhere : f = standardOutput
    · rw [(grown elsewhere).1, (grown elsewhere).2, h.differs.output h.output, h'.differs.output h'.output]
    · have apart : leads s path ≠ some standardOutput := by
        rw [there]
        exact fun shown => elsewhere (Option.some.inj shown)
      rw [h.displayed_elsewhere mem apart text, h'.displayed_elsewhere mem' apart text]
  · intro _ _ other out
    cases output.symm.trans out
    rw [nothing now_there left, nothing now_there' left']

theorem endAlike_of_file (plain : kindAt? s path ≠ some .special) (yes : writable s path) : EndAlike o o' s := by
  have filed := h.filed results output plain yes
  have filed' := h'.filed results' output' plain yes
  constructor
  · intro same
    refine succeeded_congr ?_
    rw [filed.success, filed'.success, same]
  · intro shown
    by_cases elsewhere : leads s path = some standardOutput
    · have enough : ¬ o.RanOut s ∧ ¬ o'.RanOut s := by
        cases shown with
        | inl apart => exact absurd elsewhere (apart path output)
        | inr enough => exact enough
      rw [filed.shown elsewhere enough.1, filed'.shown elsewhere enough.2]
    · rw [filed.elsewhere elsewhere, filed'.elsewhere elsewhere]
  · intro enough enough' other out
    cases output.symm.trans out
    rw [filed.contents enough, filed'.contents enough']

end Saving

theorem endAlike (same : o'.results s = o.results s) (output : o'.outputFile = o.outputFile) : EndAlike o o' s := by
  cases results : o.results s with
  | error why => exact endAlike_of_fault h h' results (same.trans results) output
  | ok text =>
      cases out : o.outputFile with
      | none => exact endAlike_of_print h h' results (same.trans results) out (output.trans out)
      | some path =>
          by_cases yes : writable s path
          · by_cases device : kindAt? s path = some .special
            · obtain ⟨f, there, special⟩ := Option.map_eq_some_iff.mp device
              exact endAlike_of_device h h' results (same.trans results) out (output.trans out) special there yes
            · exact endAlike_of_file h h' results (same.trans results) out (output.trans out) device yes
          · exact endAlike_of_refusal h h' results (same.trans results) out (output.trans out) yes

end Two

/-- Nothing is written to an input, unless the results go there. -/
theorem Undisturbed.input_unchanged (h : Undisturbed o s now) (mem : path ∈ [o.grammarFile, o.graphFile])
    (spared : ∀ f ∈ leads s path, o.target? s ≠ some f) : octets? (o.runOn s).2 path = octets? s path := by
  have about : path ∈ o.paths := List.mem_append_left o.outputFile.toList mem
  cases results : o.results s with
  | error why => exact h.octets?_still about (h.faulty results).2
  | ok text =>
      have files := (Options.resultsOf_eq_ok.mp results).1
      have file : kindAt? s path = some .file := by
        rcases List.mem_pair.mp mem with rfl | rfl
        · exact files.1
        · exact files.2
      obtain ⟨f, there, -⟩ := Option.map_eq_some_iff.mp file
      have now_there : leads now path = some f := (h.leads_eq about).trans there
      have apart := spared f there
      have written {changed : Set (File σ)} {e : σ} (differs : Differs changed now e) (away : f ∉ changed)
          (left : Alike (o.logFiles s) e (o.runOn s).2) : octets? (o.runOn s).2 path = octets? s path := by
        have known := differs.known now_there
        have last : octets? (o.runOn s).2 path = octets? e path := by
          refine left.differs.octets? fun g g_there => ?_
          cases g_there.symm.trans ((left.leads path).trans known)
          exact h.apart path about f now_there
        have middle : octets? e path = octets? now path := by
          refine differs.octets? fun g g_there => ?_
          cases g_there.symm.trans known
          exact away
        rw [last, middle, h.differs.octets? (h.apart path about)]
      unfold Options.target? at apart
      cases output : o.outputFile with
      | none =>
          rw [output] at apart
          refine written (FileLaws.print_output now text).1.differs ?_ (h.printed results output).2
          exact fun shown => apart (congrArg some shown.symm)
      | some out =>
          rw [output] at apart
          obtain ⟨changed, differs, places⟩ := writeResults_differs out text now
          refine written differs (fun mem' => ?_) (h.saving results output).2
          cases places f mem' with
          | inl known => exact apart ((h.leads_eq (Options.mem_paths_of_output output)).symm.trans known)
          | inr fresh => exact fresh.unknown path now_there

/-- Runs that differ only in what they tell their logs, and where, end alike. -/
theorem verbosity_irrelevant (o : Options) (s : σ) (quiet trace : Bool) (logFile : String)
    (apart : o.LogApart s) (apart' : { o with quiet, trace, logFile }.LogApart s) :
    let o' := { o with quiet, trace, logFile }
    let after := (o.runOn s).2
    let after' := (o'.runOn s).2
    ((o.RanOut s ↔ o'.RanOut s) → (o.runOn s).1 = (o'.runOn s).1) ∧
      ((∀ path ∈ o.outputFile, leads s path ≠ some standardOutput) ∨ ¬ o.RanOut s ∧ ¬ o'.RanOut s →
        displayed after .output = displayed after' .output) ∧
      (¬ o.RanOut s → ¬ o'.RanOut s → ∀ path ∈ o.outputFile, octets? after path = octets? after' path) ∧
      ∀ path ∈ [o.grammarFile, o.graphFile], (∀ f ∈ leads s path, o.target? s ≠ some f) →
        octets? after path = octets? s path ∧ octets? after' path = octets? s path := by
  intro o' after after'
  obtain ⟨now, h⟩ := exists_undisturbed apart
  obtain ⟨now', h'⟩ := exists_undisturbed apart'
  have alike := endAlike h h' rfl rfl
  refine ⟨alike.succeeded, alike.displayed, alike.contents, fun path mem spared => ?_⟩
  exact ⟨h.input_unchanged mem spared, h'.input_unchanged mem spared⟩

/-- A run that traces to a device without room ends like one that is quiet. -/
theorem verbosity_no_room :
    let o : Options := { outputFile := some "out.txt", trace := true, logFile := "/dev/full" }
    let o' : Options := { o with quiet := true, trace := false }
    (o.runOn Disk.small).1 = (o'.runOn Disk.small).1 ∧
      octets? (o.runOn Disk.small).2 "out.txt" = octets? (o'.runOn Disk.small).2 "out.txt" := by
  intro o o'
  have apart : o.LogApart Disk.small := ⟨by decide +kernel, by decide +kernel⟩
  have apart' : o'.LogApart Disk.small := ⟨by decide +kernel, by decide +kernel⟩
  have enough {o : Options} (done : (o.runOn Disk.small).1 = true) : ¬ o.RanOut Disk.small := by
    intro full
    cases full.1.symm.trans ((run_cases o Disk.small).2.1.mp done)
  have first : ¬ o.RanOut Disk.small := enough (by decide +kernel)
  have second : ¬ o'.RanOut Disk.small := enough (by decide +kernel)
  obtain ⟨succeeded, -, contents, -⟩ := verbosity_irrelevant o Disk.small true false o.logFile apart apart'
  exact ⟨succeeded (iff_of_false first second), contents first second "out.txt" rfl⟩

/-- A disk without room, with an old log. -/
def Disk.crowded : Disk :=
  { Disk.small.addFile "cflpath.log" (String.ofList (List.replicate 100 'x')).toUTF8 with room := some 0 }

/-- A log on standard output is seen there, and a new log can make room for the results where there was an
    old one. -/
theorem verbosity_seen :
    (let o : Options := { quiet := true }
     let o' : Options := { o with quiet := false, logFile := "/dev/stdout" }
     (∀ path ∈ o'.paths, ∀ f ∈ leads (o'.opened Disk.small) path, o'.logFile? Disk.small ≠ some f) ∧
       displayed (o.runOn Disk.small).2 .output ≠ displayed (o'.runOn Disk.small).2 .output) ∧
    let o : Options := { quiet := true, outputFile := some "out.txt" }
    let o' : Options := { o with quiet := false }
    (∀ path ∈ o'.paths, ∀ f ∈ leads (o'.opened Disk.crowded) path, o'.logFile? Disk.crowded ≠ some f) ∧
      (o.runOn Disk.crowded).1 = false ∧ (o'.runOn Disk.crowded).1 = true := by
  refine ⟨⟨by decide +kernel, fun same => ?_⟩, by decide +kernel, by decide +kernel, by decide +kernel⟩
  exact absurd (congrArg ByteArray.size same) (by decide +kernel)

end WordWalk
