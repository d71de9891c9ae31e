import WordWalk.Proofs.LogFile
import WordWalk.Proofs.RoundTrip
import WordWalk.Proofs.SearchTrace

/-! # The results of a run

What a run finds out is a function of what stands at the paths of its two input files, as they are once
its log has been opened. Only if an input is the file of the log itself may there be more in it when it is
read, but nothing that a log is told begins like a document.
-/

namespace WordWalk

open FileView

def Options.findings (o : Options) (graph : Graph) (index : Index) : Findings where
  source := o.source
  target := o.target
  report := Query.report
    { graph, index, source := o.source, target := o.target, limits := o.limits, traced := false }
  reachable := .ofTree (graph.reachableFrom o.source)

theorem Options.findings_query (o : Options) (graph : Graph) (index : Index) :
    (o.query graph index).findings (o.query graph index).final = o.findings graph index :=
  congrArg (Findings.mk o.source o.target · (.ofTree (graph.reachableFrom o.source)))
    (Query.report_quiet (o.query graph index)).symm

/-! ## What the input files say -/

structure Input where
  kind : Option EntryKind
  contents : Except OsFault String

/-- The same kind of entry, and for a file the same contents. -/
structure Input.Same (i j : Input) : Prop where
  kind : i.kind = j.kind
  contents : j.kind = some .file → i.contents = j.contents

/-- The verdict on an input, given what stands at its path. -/
def admitted (role path : String) : Option EntryKind → Except RunError Unit
  | none => .error (.invalidPath s!"{role} file not found: {path}")
  | some .special => .error (.invalidPath s!"{role} path is not a file: {path}")
  | some .file => .ok ()

theorem admitted_eq_ok {role path : String} {kind : Option EntryKind} :
    admitted role path kind = .ok () ↔ kind = some .file := by
  rcases kind with - | _ | _ <;> simp [admitted]

namespace Options

variable (o : Options)

def indexOf (contents : Except OsFault String) : Except RunError Index := do
  let grammar ← (loadWith parseGrammar o.grammarFile contents).mapError .load
  (Index.build o.policy grammar).mapError .grammar

def graphOf (contents : Except OsFault String) : Except RunError Graph :=
  (loadWith parseGraph o.graphFile contents).mapError .load

/-- The text of the results, or the first fault, given what is found at the paths of the inputs. -/
def resultsOf (grammar graph : Input) : Except RunError String := do
  admitted "grammar" o.grammarFile grammar.kind
  admitted "graph" o.graphFile graph.kind
  let index ← o.indexOf grammar.contents
  let graph ← o.graphOf graph.contents
  return (o.findings graph index).render o.json

theorem resultsOf_same {grammar grammar' graph graph' : Input} (h : grammar.Same grammar')
    (h' : graph.Same graph') : o.resultsOf grammar graph = o.resultsOf grammar' graph' := by
  unfold resultsOf
  rw [h.kind, h'.kind]
  rcases first : grammar'.kind with - | _ | _
  · rfl
  · rw [h.contents first]
    rcases second : graph'.kind with - | _ | _
    · rfl
    · rw [h'.contents second]
    · rfl
  · rfl

variable {o}

theorem resultsOf_eq_ok {grammar graph : Input} {text : String} :
    o.resultsOf grammar graph = .ok text ↔
      (grammar.kind = some .file ∧ graph.kind = some .file) ∧
        ∃ rules index edges, loadWith parseGrammar o.grammarFile grammar.contents = .ok rules ∧
          Index.build o.policy rules = .ok index ∧ loadWith parseGraph o.graphFile graph.contents = .ok edges ∧
          (o.findings edges index).render o.json = text := by
  simp only [resultsOf, indexOf, graphOf, bind_eq_ok, mapError_eq_ok, Pure.pure, Except.pure, Except.ok.injEq]
  constructor
  · rintro ⟨_, first, _, second, index, ⟨rules, loaded, built⟩, edges, loaded', rendered⟩
    exact ⟨⟨admitted_eq_ok.mp first, admitted_eq_ok.mp second⟩, rules, index, edges, loaded, built, loaded',
      rendered⟩
  · rintro ⟨⟨first, second⟩, rules, index, edges, loaded, built, loaded', rendered⟩
    exact ⟨(), admitted_eq_ok.mpr first, (), admitted_eq_ok.mpr second, index, ⟨rules, loaded, built⟩,
      edges, loaded', rendered⟩

end Options

/-! ## Logs are not documents -/

theorem Json.brace_of_read {α : Type} {text : String} {value : Nat → Json.Reader α} {ms : List (String × α)}
    (done : Json.read (fun fuel => Json.Reader.objectOf fuel (value fuel)) text = .ok ms) :
    ∃ more, Json.Reader.skipBlanks text.toList = '\x7b' :: more := by
  obtain ⟨rest, taken, -⟩ := Json.read_eq_ok.mp done
  obtain ⟨more, braced, -⟩ := Json.Reader.objectOf_eq_ok.mp taken
  exact ⟨more, braced⟩

namespace LogText

variable {text origin : String}

/-- The beginning of a log has no brace. -/
theorem no_brace (log : LogText text) : ¬ ∃ more, Json.Reader.skipBlanks text.toList = '\x7b' :: more := by
  rintro ⟨more, braced⟩
  cases log with
  | inl nothing =>
      rw [nothing] at braced
      cases braced
  | inr letters =>
      obtain ⟨cs, letters⟩ := letters
      rw [letters] at braced
      exact absurd (List.cons.inj braced).1 (by decide)

theorem not_grammar (log : LogText text) (g : Grammar) : parseGrammar origin text ≠ .ok g := by
  intro parsed
  obtain ⟨all, entries, members, -⟩ := Grammar.parse_eq_ok.mp parsed
  exact log.no_brace (Json.brace_of_read members)

theorem not_graph (log : LogText text) (g : Graph) : parseGraph origin text ≠ .ok g := by
  intro parsed
  obtain ⟨nodes, read, -⟩ := Json.read_map_eq_ok.mp (mapError_eq_ok.mp parsed)
  exact log.no_brace (Json.brace_of_read read)

end LogText

/-- If anything is read, it is the beginning of a log. -/
def LogContents (contents : Except OsFault String) : Prop := ∀ text, contents = .ok text → LogText text

theorem Options.no_results_of_log {o : Options} {grammar graph : Input} {text : String}
    (log : LogContents grammar.contents ∨ LogContents graph.contents) : o.resultsOf grammar graph ≠ .ok text := by
  intro results
  obtain ⟨-, rules, index, edges, loaded, -, loaded', -⟩ := resultsOf_eq_ok.mp results
  cases log with
  | inl first =>
      obtain ⟨text, read, parsed⟩ := bind_eq_ok.mp loaded
      exact (first text (mapError_eq_ok.mp read)).not_grammar rules parsed
  | inr second =>
      obtain ⟨text, read, parsed⟩ := bind_eq_ok.mp loaded'
      exact (second text (mapError_eq_ok.mp read)).not_graph edges parsed

variable {σ : Type} [Files (StateM σ)]

/-! ## Work that may fail -/

section Attempt

variable {α β : Type} {P : Condition σ} {x : Attempt (StateM σ) α} {f : α → Attempt (StateM σ) β}
  {R : Except RunError α → Prop} {S : Except RunError β → Prop}

theorem Ensures.attempt {Q : Except RunError α → Condition σ} {Q' : Except RunError β → Condition σ}
    (first : Ensures P x.run Q) (second : ∀ a, Ensures (Q (.ok a)) (f a).run Q')
    (stop : ∀ e log s, Q (.error e) log s → Q' (.error e) log s) : Ensures P (x >>= f).run Q' := by
  change Ensures P (x.run >>= ExceptT.bindCont f) _
  refine first.bind fun r => ?_
  cases r with
  | ok a => exact second a
  | error e => exact .pure (stop e)

theorem ensures_onFiles {y : StateM σ α} {Q : Except RunError α → Condition σ}
    (h : ∀ log s, P log s → Q (.ok (y s).1) log (y s).2) :
    Ensures P (liftM y : Attempt (StateM σ) α).run Q := h

/-- The work keeps the condition and comes to a result of a kind. -/
def Yields (P : Condition σ) (x : Attempt (StateM σ) α) (R : Except RunError α → Prop) : Prop :=
  Ensures P x.run fun r log s => R r ∧ P log s

theorem Yields.bind (first : Yields P x R) (second : ∀ a, R (.ok a) → Yields P (f a) S)
    (stop : ∀ e, R (.error e) → S (.error e)) : Yields P (x >>= f) S :=
  Ensures.attempt first (fun a log s holds => second a holds.1 log s holds.2)
    fun e _ _ holds => ⟨stop e holds.1, holds.2⟩

theorem Yields.mono {R' : Except RunError α → Prop} (h : Yields P x R) (le : ∀ r, R r → R' r) :
    Yields P x R' :=
  Ensures.mono h fun r _ _ holds => ⟨le r holds.1, holds.2⟩

/-- If two steps each mirror a function of something that may be seen, so do both together. -/
theorem Yields.andThen {τ υ : Type} {A : τ → Prop} {B : υ → Prop} {F : τ → Except RunError α}
    {G : α → υ → Except RunError β} (first : Yields P x fun r => ∃ t, A t ∧ r = F t)
    (second : ∀ a, Yields P (f a) fun r => ∃ u, B u ∧ r = G a u) (always : ∃ u, B u) :
    Yields P (x >>= f) fun r => ∃ tu : τ × υ, (A tu.1 ∧ B tu.2) ∧ r = F tu.1 >>= (G · tu.2) := by
  refine first.bind ?_ ?_
  · rintro a ⟨t, here, done⟩
    refine (second a).mono ?_
    rintro r ⟨u, there, rfl⟩
    exact ⟨(t, u), ⟨here, there⟩, by rw [← done]; rfl⟩
  · rintro e ⟨t, here, failed⟩
    obtain ⟨u, there⟩ := always
    exact ⟨(t, u), ⟨here, there⟩, by rw [← failed]; rfl⟩

theorem Yields.starting (h : ∀ log s, P log s → Yields P x R) : Yields P x R :=
  fun log s holds => h log s holds log s holds

theorem Yields.pure {a : α} (kind : R (.ok a)) : Yields P (pure a) R :=
  Ensures.pure fun _ _ holds => ⟨kind, holds⟩

theorem Yields.throw {e : RunError} (kind : R (.error e)) : Yields P (throw e) R :=
  Ensures.pure fun _ _ holds => ⟨kind, holds⟩

theorem Yields.lift {y : Recorded (StateM σ) α} (h : Ensures P y fun a log s => R (.ok a) ∧ P log s) :
    Yields P (ExceptT.lift y) R := Ensures.bind h fun _ => .pure fun _ _ => id

/-- What may be found out about the system while the condition holds. -/
def Seen {γ : Type} (P : Condition σ) (look : σ → γ) (x : γ) : Prop := ∃ log s, P log s ∧ look s = x

theorem Yields.afterAsking {y : StateM σ β} (look : σ → β) {g : β → Attempt (StateM σ) α}
    (asks : ∀ s, y s = (look s, s)) (h : ∀ b, Seen P look b → Yields P (g b) R) :
    Yields P (do g (← (y : Attempt (StateM σ) β))) R := by
  have asked : Yields P (liftM y : Attempt (StateM σ) β) fun r => ∃ b, Seen P look b ∧ r = .ok b := by
    refine ensures_onFiles fun log s holds => ?_
    rw [asks]
    exact ⟨⟨_, ⟨log, s, holds, rfl⟩, rfl⟩, holds⟩
  refine asked.bind ?_ ?_
  · rintro a ⟨b, seen, same⟩
    cases same
    exact h a seen
  · rintro e ⟨b, -, none⟩
    cases none

end Attempt

variable [FileView σ] [FileLaws σ]

theorem Steady.note {P : Condition σ} (steady : Steady P) (line : LogLine) : Yields P (note line) (· = .ok ()) :=
  .lift ((steady.tell line).mono fun _ _ _ holds => ⟨rfl, holds⟩)

theorem Yields.afterNote {α : Type} {P : Condition σ} {x : Attempt (StateM σ) α} {R : Except RunError α → Prop}
    (steady : Steady P) (line : LogLine) (h : Yields P x R) : Yields P (do note line; x) R :=
  (steady.note line).bind (fun _ _ => h) fun _ none => nomatch none

/-! ## The steps of a run -/

namespace FileView

def input (s : σ) (path : String) : Input := ⟨kindAt? s path, text s path⟩

theorem readText_run (s : σ) (path : String) : (Files.readText path : StateM σ _) s = (text s path, s) :=
  Prod.ext rfl (FileLaws.readText_unchanged s path)

end FileView

section Steps

variable {P : Condition σ} (o : Options)

theorem yields_checkInput (steady : Steady P) (role path : String) :
    Yields P (checkInput role path) fun r => ∃ k, Seen P (kindAt? · path) k ∧ r = admitted role path k := by
  have refuse : ∀ message, Yields P
      (do note (.fault ["Input Error: ", message]); throw (.invalidPath message) : Attempt (StateM σ) Unit)
      (· = .error (.invalidPath message)) := fun message => .afterNote steady _ (.throw rfl)
  unfold checkInput
  refine .afterAsking (kindAt? · path) (fun s => FileLaws.kind?_run s path) fun k seen => ?_
  rcases k with - | _ | _
  · exact (refuse _).mono fun r eq => ⟨none, seen, eq⟩
  · exact .pure ⟨some .file, seen, rfl⟩
  · exact (refuse _).mono fun r eq => ⟨some .special, seen, eq⟩

theorem yields_prepareIndex (steady : Steady P) :
    Yields P (prepareIndex o) fun r => ∃ c, Seen P (text · o.grammarFile) c ∧ r = o.indexOf c := by
  unfold prepareIndex
  refine .afterNote steady _ (Yields.afterAsking (text · o.grammarFile) (readText_run · _) fun c seen => ?_)
  cases loaded : loadWith parseGrammar o.grammarFile c with
  | error why => exact .throw ⟨c, seen, by rw [Options.indexOf, loaded]; rfl⟩
  | ok grammar =>
      dsimp only
      cases built : Index.build o.policy grammar with
      | error why =>
          refine .afterNote steady _ (.throw ?_)
          exact ⟨c, seen, by simp only [Options.indexOf, loaded, Except.mapError, bind, Except.bind, built]⟩
      | ok index =>
          refine .afterNote steady _ (.pure ?_)
          exact ⟨c, seen, by simp only [Options.indexOf, loaded, Except.mapError, bind, Except.bind, built]⟩

theorem yields_prepareGraph (steady : Steady P) :
    Yields P (prepareGraph o) fun r => ∃ c, Seen P (text · o.graphFile) c ∧ r = o.graphOf c := by
  unfold prepareGraph
  refine .afterNote steady _ (Yields.afterAsking (text · o.graphFile) (readText_run · _) fun c seen => ?_)
  cases loaded : loadWith parseGraph o.graphFile c with
  | error why => exact .throw ⟨c, seen, by rw [Options.graphOf, loaded]; rfl⟩
  | ok graph => exact .afterNote steady _ (.pure ⟨c, seen, by rw [Options.graphOf, loaded]; rfl⟩)

theorem yields_explore (steady : Steady P) (graph : Graph) (index : Index) :
    Yields P (do return (← ExceptT.lift (explore (o.query graph index))).render o.json)
      (· = .ok ((o.findings graph index).render o.json)) := by
  refine .bind (R := (· = .ok (o.findings graph index))) (.lift ?_) ?_ fun _ none => nomatch none
  · refine (steady.tellAll _).bind fun _ => (steady.said _).bind fun _ => .pure fun log s holds => ⟨?_, holds⟩
    rw [o.findings_query graph index]
  · rintro _ ⟨⟩
    exact .pure rfl

end Steps

/-- The part of a run that does not touch the output file. -/
def investigate (o : Options) : Attempt (StateM σ) String := do
  checkInput "grammar" o.grammarFile
  checkInput "graph" o.graphFile
  let index ← prepareIndex o
  let graph ← prepareGraph o
  let findings ← ExceptT.lift (explore (o.query graph index))
  return findings.render o.json

omit [FileView σ] [FileLaws σ] in
theorem analyse_eq (o : Options) : (analyse o : Attempt (StateM σ) Unit) = investigate o >>= deliver o := by
  simp only [analyse, investigate, bind_assoc, pure_bind]

/-- What may be found at a path while a condition holds. It is looked at twice. -/
structure Found (P : Condition σ) (path : String) (i : Input) : Prop where
  kind : Seen P (kindAt? · path) i.kind
  contents : Seen P (text · path) i.contents

omit [FileLaws σ] in
theorem found_input {P : Condition σ} {log : Option (Writer (StateM σ))} {s : σ} (holds : P log s)
    (path : String) : Found P path (input s path) :=
  ⟨⟨log, s, holds, rfl⟩, ⟨log, s, holds, rfl⟩⟩

/-- Whatever becomes of the files of the inputs, the results come from what is found there. -/
theorem yields_investigate {P : Condition σ} (o : Options) (steady : Steady P) :
    Yields P (investigate o) fun r =>
      ∃ grammar graph, Found P o.grammarFile grammar ∧ Found P o.graphFile graph ∧
        r = o.resultsOf grammar graph := by
  refine .starting fun log s holds => ?_
  have now := found_input holds
  have loaded (index : Index) :
      Yields P (do return (← ExceptT.lift (explore (o.query (← prepareGraph o) index))).render o.json) fun r =>
        ∃ c, Seen P (text · o.graphFile) c ∧
          r = o.graphOf c >>= fun graph => .ok ((o.findings graph index).render o.json) := by
    refine (yields_prepareGraph o steady).bind ?_ ?_
    · rintro graph ⟨c, seen, done⟩
      exact (yields_explore o steady graph index).mono fun r eq => ⟨c, seen, by rw [← done, eq]; rfl⟩
    · rintro e ⟨c, seen, failed⟩
      exact ⟨c, seen, by rw [← failed]; rfl⟩
  refine ((yields_checkInput steady "grammar" o.grammarFile).andThen
    (fun _ => (yields_checkInput steady "graph" o.graphFile).andThen
      (fun _ => (yields_prepareIndex o steady).andThen loaded ⟨_, (now _).contents⟩)
      ⟨(_, _), (now _).contents, (now _).contents⟩)
    ⟨(_, _, _), (now _).kind, (now _).contents, (now _).contents⟩).mono ?_
  rintro r ⟨⟨grammarKind, graphKind, grammar, graph⟩, ⟨seen, seen', read, read'⟩, rfl⟩
  exact ⟨⟨grammarKind, grammar⟩, ⟨graphKind, graph⟩, ⟨seen, read⟩, ⟨seen', read'⟩, rfl⟩

/-! ## Inputs and the log -/

namespace Options

/-- An input as it was once the log had been opened. If it is the file of the log, and can be read, there may be
    a part of what the log has been told by then. -/
structure Finds (o : Options) (s : σ) (path : String) (input : Input) : Prop where
  kind : input.kind = kindAt? (o.opened s) path
  contents : ∀ f, leads (o.opened s) path = some f → FileView.kind f = .file →
    input.contents = text (o.opened s) path ∧ o.logFile? s ≠ some f ∨
      o.logFile? s = some f ∧ LogContents input.contents

/-- What holds from the first line of the log on. -/
def Logged (o : Options) (s : σ) : Condition σ := fun log e =>
  Kept (o.logFiles s) (o.opened s) log e ∧ ∀ f, o.logFile? s = some f → kind f = .file → Begun f log e

omit [FileLaws σ] in
theorem steady_logged (o : Options) (s : σ) : Steady (o.Logged s) where
  wait piece holds := by
    refine ⟨(steady_kept _ _).wait piece holds.1, fun f log regular => ?_⟩
    exact (steady_begun regular).wait piece (holds.2 f log regular)
  flush holds wrote := by
    refine ⟨(steady_kept _ _).flush holds.1 wrote, fun f log regular => ?_⟩
    exact (steady_begun regular).flush (holds.2 f log regular) wrote
  through piece holds nothing wrote := by
    refine ⟨(steady_kept _ _).through piece holds.1 nothing wrote, fun f log regular => ?_⟩
    exact (steady_begun regular).through piece (holds.2 f log regular) nothing wrote
  say holds alike := by
    refine ⟨(steady_kept _ _).say holds.1 alike, fun f log regular => ?_⟩
    exact (steady_begun regular).say (holds.2 f log regular) alike

theorem logged_opening (o : Options) (s : σ) :
    o.Logged s ((tell (.plain [logOpening, o.logFile]) : Recorded (StateM σ) Unit) (o.log? s) (o.opened s)).1.2
      ((tell (.plain [logOpening, o.logFile]) : Recorded (StateM σ) Unit) (o.log? s) (o.opened s)).2 := by
  constructor
  · exact (steady_kept _ _).tell _ _ _ (.refl (o.log_inside s))
  · intro f log regular
    exact Unused.tell regular [o.logFile] _ _ (unused_opened log regular)

theorem finds_of_found {o : Options} {s : σ} {path : String} {input : Input}
    (found : Found (o.Logged s) path input) : o.Finds s path input := by
  obtain ⟨⟨_, e, asked, kind⟩, ⟨log, t, holds, contents⟩⟩ := found
  constructor
  · rw [← kind]
    exact congrArg (Option.map FileView.kind) (asked.1.2.leads path)
  · intro f there regular
    have there' : leads t path = some f := (holds.1.2.leads path).trans there
    by_cases mine : o.logFile? s = some f
    · refine .inr ⟨mine, fun text read => ?_⟩
      exact (holds.2 f mine regular).read regular there' (contents.trans read)
    · refine .inl ⟨?_, mine⟩
      rw [← contents]
      exact holds.1.2.differs.text there regular mine

namespace Finds

variable {o : Options} {s : σ} {path : String} {input : Input} (found : o.Finds s path input)
include found

theorem same (apart : ∀ f ∈ leads (o.opened s) path, o.logFile? s ≠ some f) :
    input.Same (FileView.input s path) := by
  have leads_eq : leads (o.opened s) path = leads s path := (o.differs_opened s).leads_eq apart
  constructor
  · rw [found.kind]
    exact congrArg (Option.map FileView.kind) leads_eq
  · intro file
    obtain ⟨f, there, regular⟩ := Option.map_eq_some_iff.mp file
    have opened := leads_eq.trans there
    cases found.contents f opened regular with
    | inl read =>
        rw [read.1]
        exact (o.differs_opened s).text there regular read.2
    | inr log => exact absurd log.1 (apart f opened)

omit [FileLaws σ] in
/-- A document is not the file of the log. -/
theorem apart (file : input.kind = some .file) (document : ¬ LogContents input.contents) :
    ∀ f ∈ leads (o.opened s) path, o.logFile? s ≠ some f := by
  intro f there log
  have regular : FileView.kind f = .file := by
    rw [found.kind, kindAt?, there] at file
    exact Option.some.inj file
  cases found.contents f there regular with
  | inl read => exact read.2 log
  | inr logged => exact document logged.2

end Finds

end Options

end WordWalk
