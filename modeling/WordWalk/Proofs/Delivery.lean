import WordWalk.Proofs.RunResults

/-! # Delivering results

Results are printed, or written to the output file. Before and after that a run writes nothing but its
log, so what it leaves is what delivering the results leaves, but for the file of the log.
-/

namespace WordWalk

open FileView

variable {σ : Type} [Files (StateM σ)]

/-! ## Writing to an opened file -/

theorem Writer.hasRoom_new (handle : Files.Handle (StateM σ)) (piece : ByteArray) :
    ({ handle } : Writer (StateM σ)).hasRoom piece = decide (piece.size < capacity) := by
  have nothing : ({ handle } : Writer (StateM σ)).waiting.size = 0 := rfl
  rw [hasRoom, nothing, Nat.zero_add, Bool.eq_iff_iff, Bool.and_eq_true, decide_eq_true_iff, decide_eq_true_iff]
  omega

theorem Writer.wait_new (handle : Files.Handle (StateM σ)) (piece : ByteArray) :
    ({ handle } : Writer (StateM σ)).wait piece = { handle, waiting := piece } := by
  simp [wait]

theorem finish_empty (handle : Files.Handle (StateM σ)) (s : σ) :
    (finish { handle } "" : StateM σ _) s = (.ok (), s) := by
  have room : ({ handle } : Writer (StateM σ)).hasRoom "".toUTF8 = true := by
    rw [Writer.hasRoom_new]
    rfl
  have nothing := Writer.flush_nothing (Writer.wait ({ handle } : Writer (StateM σ)) "".toUTF8) s rfl
  unfold finish
  simp only [bind, StateT.bind, Writer.put_room s room, nothing]
  rfl

/-- What is written of a text if the first attempt comes to this. What had waited for it is tried again. -/
def finishing (handle : Files.Handle (StateM σ)) (text : String) (done : Written (Files.Handle (StateM σ)))
    (s : σ) : Except OsFault Unit × σ :=
  match done.fault? with
  | none => (.ok (), s)
  | some why =>
      (.error why, if text.toUTF8.size < Writer.capacity then
        ((Writer.after { handle, waiting := text.toUTF8 } done).flush s).2 else s)

theorem finish_run (handle : Files.Handle (StateM σ)) {text : String} (more : text ≠ "") (s : σ) :
    (finish { handle } text : StateM σ _) s =
      let done := (Files.write handle text.toUTF8 : StateM σ _) s
      finishing handle text done.1 done.2 := by
  have room := Writer.hasRoom_new handle text.toUTF8
  have some : text.toUTF8.size ≠ 0 := by simpa using more
  have flushed := Writer.flush_run (Writer.wait ({ handle } : Writer (StateM σ)) text.toUTF8) s
  rw [Writer.wait_new] at flushed
  unfold finish finishing
  by_cases small : text.toUTF8.size < Writer.capacity
  · rw [decide_eq_true small] at room
    simp only [bind, StateT.bind, Writer.put_room s room, Writer.wait_new, flushed some, if_pos small]
    cases ((Files.write handle text.toUTF8 : StateM σ _) s).1.fault? <;> rfl
  · rw [decide_eq_false small] at room
    have nothing : ∀ (h : Files.Handle (StateM σ)) (e : σ),
        (({ handle := h } : Writer (StateM σ)).flush : StateM σ _) e = (({ handle := h }, none), e) :=
      fun h e => Writer.flush_nothing _ e rfl
    simp only [bind, StateT.bind, Writer.put_after room (nothing handle s), Writer.putAfter_run s room, if_neg small]
    cases ((Files.write handle text.toUTF8 : StateM σ _) s).1.fault? with
    | none => rfl
    | some why => rfl

theorem writeResults_run (path text : String) (s : σ) :
    (writeResults path text : StateM σ _) s =
      match (Files.create path : StateM σ _) s with
      | (.error why, e) => (.error why, e)
      | (.ok handle, e) => (finish { handle } text : StateM σ _) e := by
  unfold writeResults
  simp only [bind, StateT.bind]
  rcases (Files.create path : StateM σ _) s with ⟨_ | _, e⟩ <;> rfl

variable [FileView σ] [FileLaws σ] {s e : σ} {path text : String}

theorem flush_alike (w : Writer (StateM σ)) (s : σ) : Alike {file w.handle} s ((w.flush : StateM σ _) s).2 :=
  ((steady_kept {file w.handle} s).flushed (.of_mem rfl (.refl _ s))).1.2

/-- What becomes of a text that is written to a file that has been opened. -/
structure Finished (s : σ) (handle : Files.Handle (StateM σ)) (text : String) (result : Except OsFault Unit)
    (e : σ) : Prop where
  alike : Alike {file handle} s e
  whole : result = .ok () → kind (file handle) = .file → position handle = 0 →
    contents s (file handle) = ∅ → contents e (file handle) = text.toUTF8
  room : kind (file handle) = .file → ∀ why, result = .error why → why = .noSpace
  output : result = .ok () → file handle = standardOutput →
    displayed e .output = displayed s .output ++ text.toUTF8

theorem finished (handle : Files.Handle (StateM σ)) (text : String) (s : σ) :
    Finished s handle text ((finish { handle } text : StateM σ _) s).1
      ((finish { handle } text : StateM σ _) s).2 := by
  have fine (why : OsFault) (fault : (.ok () : Except OsFault Unit) = .error why) : why = .noSpace := by
    cases fault
  by_cases more : text = ""
  · rw [more, finish_empty]
    exact ⟨.refl _ s, fun _ _ _ empty => empty, fun _ => fine, fun _ _ => ByteArray.append_empty.symm⟩
  · have wrote := FileLaws.write_run s handle text.toUTF8
    rw [finish_run handle more]
    dsimp only
    generalize (Files.write handle text.toUTF8 : StateM σ _) s = done at wrote
    have whole : done.1.fault? = none → text.toUTF8.extract 0 done.1.taken = text.toUTF8 := by
      intro none
      rw [wrote.whole none, ByteArray.extract_zero_size]
    unfold finishing
    cases fault : done.1.fault? with
    | none =>
        refine ⟨wrote.alike, ?_, fun _ => fine, ?_⟩
        · intro _ regular start empty
          rw [wrote.contents regular, start, empty, overlay_start, whole fault]
        · intro _ shown
          rw [wrote.output shown, whole fault]
    | some why =>
        have room : kind (file handle) = .file →
            ∀ why', Except.error why = (.error why' : Except OsFault Unit) → why' = .noSpace := by
          rintro regular _ ⟨⟩
          exact wrote.room regular why fault
        have again := flush_alike (Writer.after { handle, waiting := text.toUTF8 } done.1) done.2
        rw [Writer.after, wrote.file] at again
        refine ⟨?_, fun none => (by cases none), room, fun none => (by cases none)⟩
        dsimp only
        split
        · exact wrote.alike.trans again
        · exact wrote.alike

/-- The same has been put on a device in two systems. -/
def Grown (device : File σ) (s s' e e' : σ) : Prop :=
  ∃ octets, device = standardOutput →
    displayed s' .output = displayed s .output ++ octets ∧
      displayed e' .output = displayed e .output ++ octets

omit [FileLaws σ] in
theorem Grown.refl (device : File σ) (s e : σ) : Grown device s s e e :=
  ⟨∅, fun _ => ⟨ByteArray.append_empty.symm, ByteArray.append_empty.symm⟩⟩

omit [FileLaws σ] in
theorem Grown.trans {device : File σ} {s s' s'' e e' e'' : σ} (h : Grown device s s' e e')
    (g : Grown device s' s'' e' e'') : Grown device s s'' e e'' := by
  obtain ⟨first, here⟩ := h
  obtain ⟨second, there⟩ := g
  refine ⟨first ++ second, fun shown => ?_⟩
  rw [(there shown).1, (there shown).2, (here shown).1, (here shown).2, ByteArray.append_assoc,
    ByteArray.append_assoc]
  exact ⟨rfl, rfl⟩

section Device

variable {handle other : Files.Handle (StateM σ)} (same : file handle = file other)
  (device : kind (file handle) = .special)
include same device

theorem write_grown (s e : σ) (piece : ByteArray) :
    Grown (file handle) s ((Files.write handle piece : StateM σ _) s).2 e
      ((Files.write other piece : StateM σ _) e).2 := by
  have first := FileLaws.write_run s handle piece
  have second := FileLaws.write_run e other piece
  refine ⟨_, fun shown => ⟨first.output shown, ?_⟩⟩
  rw [(FileLaws.write_device s e handle other piece same device).1]
  exact second.output (same.symm.trans shown)

theorem flush_grown (s e : σ) (waiting : ByteArray) :
    Grown (file handle) s ((Writer.flush { handle, waiting } : StateM σ _) s).2 e
      ((Writer.flush { handle := other, waiting } : StateM σ _) e).2 := by
  by_cases nothing : waiting.size = 0
  · rw [Writer.flush_nothing _ s nothing, Writer.flush_nothing _ e nothing]
    exact .refl _ s e
  · rw [Writer.flush_run _ s nothing, Writer.flush_run _ e nothing]
    exact write_grown same device s e waiting

/-- Writing to a device comes to the same in all systems. -/
theorem finish_device (s e : σ) (text : String) :
    ((finish { handle } text : StateM σ _) s).1 = ((finish { handle := other } text : StateM σ _) e).1 ∧
      Grown (file handle) s ((finish { handle } text : StateM σ _) s).2 e
        ((finish { handle := other } text : StateM σ _) e).2 := by
  by_cases more : text = ""
  · rw [more, finish_empty, finish_empty]
    exact ⟨rfl, .refl _ s e⟩
  · have first := FileLaws.write_run s handle text.toUTF8
    have second := FileLaws.write_run e other text.toUTF8
    obtain ⟨taken, fault⟩ := FileLaws.write_device s e handle other text.toUTF8 same device
    have grown := write_grown same device s e text.toUTF8
    rw [finish_run handle more, finish_run other more]
    dsimp only
    generalize (Files.write handle text.toUTF8 : StateM σ _) s = done at first taken fault grown
    generalize (Files.write other text.toUTF8 : StateM σ _) e = done' at second taken fault grown
    unfold finishing
    rw [← fault]
    cases done.1.fault? with
    | none => exact ⟨rfl, grown⟩
    | some why =>
        refine ⟨rfl, ?_⟩
        dsimp only
        split
        · have later := flush_grown ((first.file.trans same).trans second.file.symm)
            (by rw [first.file]; exact device) done.2 done'.2
              (text.toUTF8.extract done.1.taken text.toUTF8.size)
          rw [first.file] at later
          rw [Writer.after, Writer.after, ← taken]
          exact grown.trans later
        · exact grown

end Device

/-! ## Writing results to a file -/

theorem writeResults_cases (path text : String) (s : σ) :
    (∃ why, (writeResults path text : StateM σ _) s = (.error why, s) ∧ Refused s path why) ∨
      ∃ handle e, Opened s path handle e ∧
        (writeResults path text : StateM σ _) s = (finish { handle } text : StateM σ _) e := by
  rw [writeResults_run]
  cases FileLaws.create_run s path with
  | inl refused =>
      obtain ⟨why, run, refused⟩ := refused
      exact .inl ⟨why, by rw [run], refused⟩
  | inr made =>
      obtain ⟨handle, e, run, made⟩ := made
      exact .inr ⟨handle, e, made, by rw [run]⟩

/-- What has become of the file that results have been written to. -/
structure Saved (s : σ) (path text : String) (f : File σ) (e : σ) : Prop where
  leads : leads e path = some f
  place : FileView.leads s path = some f ∨ FileView.leads s path = none ∧ Fresh s f
  differs : Differs {f} s e
  contents : kind f = .file → FileView.contents e f = text.toUTF8
  output : f = standardOutput → displayed e .output = displayed s .output ++ text.toUTF8

theorem saved_of_writeResults (written : (writeResults path text : StateM σ _) s = (.ok (), e)) :
    ∃ f, Saved s path text f e := by
  cases writeResults_cases path text s with
  | inl refused =>
      obtain ⟨why, run, -⟩ := refused
      cases written.symm.trans run
  | inr made =>
      obtain ⟨handle, between, made, run⟩ := made
      have done := finished handle text between
      rw [← run, written] at done
      refine ⟨file handle, (done.alike.leads path).trans made.leads, made.place,
        made.differs.trans done.alike.differs, fun regular => ?_, fun shown => ?_⟩
      · exact done.whole rfl regular made.start (made.empty regular)
      · rw [done.output rfl shown, made.output]

omit [FileLaws σ] in
theorem Saved.file_of_leads {f g : File σ} (saved : Saved s path text f e) (there : FileView.leads s path = some g) :
    f = g := by
  cases saved.place with
  | inl same => exact Option.some.inj (same.symm.trans there)
  | inr new => cases new.1.symm.trans there

theorem writeResults_differs (path text : String) (s : σ) :
    ∃ changed, Differs changed s ((writeResults path text : StateM σ _) s).2 ∧
      ∀ f ∈ changed, leads s path = some f ∨ Fresh s f := by
  cases writeResults_cases path text s with
  | inl refused =>
      obtain ⟨why, run, -⟩ := refused
      rw [run]
      exact ⟨∅, .refl ∅ s, fun f none => nomatch none⟩
  | inr made =>
      obtain ⟨handle, between, made, run⟩ := made
      have done := finished handle text between
      rw [run]
      refine ⟨{file handle}, made.differs.trans done.alike.differs, ?_⟩
      rintro _ rfl
      exact made.place.imp_right And.right

theorem writeResults_refused (text : String) (no : ¬ writable s path) :
    ∃ why, (writeResults path text : StateM σ _) s = (.error why, s) := by
  cases writeResults_cases path text s with
  | inl refused =>
      obtain ⟨why, run, -⟩ := refused
      exact ⟨why, run⟩
  | inr made =>
      obtain ⟨handle, e, made, -⟩ := made
      exact absurd made.permitted no

/-- Only want of room keeps results from a file that may be written. -/
theorem writeResults_room (text : String) (yes : writable s path) (plain : kindAt? s path ≠ some .special) :
    ((writeResults path text : StateM σ _) s).1 = .ok () ∨
      ((writeResults path text : StateM σ _) s).1 = .error .noSpace := by
  cases writeResults_cases path text s with
  | inl refused =>
      obtain ⟨why, run, refused⟩ := refused
      rw [run]
      cases refused with
      | inl no => exact absurd yes no
      | inr full =>
          rw [full.2]
          exact .inr rfl
  | inr made =>
      obtain ⟨handle, e, made, run⟩ := made
      have regular := regular_of_place made.place plain
      have done := finished handle text e
      rw [run]
      cases result : ((finish { handle } text : StateM σ _) e).1 with
      | ok => exact .inl rfl
      | error why => exact .inr (congrArg Except.error (done.room regular why result))

theorem writeResults_device (text : String) {f : File σ} (device : kind f = .special)
    (there : leads s path = some f) (there' : leads e path = some f) (yes : writable s path)
    (yes' : writable e path) :
    ((writeResults path text : StateM σ _) s).1 = ((writeResults path text : StateM σ _) e).1 ∧
      Grown f s ((writeResults path text : StateM σ _) s).2 e ((writeResults path text : StateM σ _) e).2 := by
  have opened {t : σ} (there : leads t path = some f) (yes : writable t path) :
      ∃ handle u, displayed u .output = displayed t .output ∧ file handle = f ∧
        (writeResults path text : StateM σ _) t = (finish { handle } text : StateM σ _) u := by
    cases writeResults_cases path text t with
    | inl refused =>
        obtain ⟨why, -, no | full⟩ := refused
        · exact absurd yes no
        · cases there.symm.trans full.1
    | inr made =>
        obtain ⟨handle, u, made, run⟩ := made
        cases made.place with
        | inl same => exact ⟨handle, u, made.output, Option.some.inj (same.symm.trans there), run⟩
        | inr new => cases there.symm.trans new.1
  obtain ⟨handle, t, before, rfl, run⟩ := opened there yes
  obtain ⟨other, u, before', same, run'⟩ := opened there' yes'
  obtain ⟨result, octets, grown⟩ := finish_device same.symm device t u text
  rw [run, run']
  refine ⟨result, octets, fun shown => ?_⟩
  rw [← before, ← before']
  exact grown shown

/-! ## The course of a run -/

namespace Options

variable (o : Options)

/-- What becomes of results, and the system that delivering them leaves. -/
def delivered (s : σ) (text : String) : Except RunError Unit × σ :=
  match o.outputFile with
  | none => (.ok (), ((Files.print .output text : StateM σ _) s).2)
  | some path =>
      let (result, e) := (writeResults path text : StateM σ _) s
      (result.mapError .output, e)

/-- What becomes of a run that has come to results or to a fault, and the system that this leaves. -/
def concluded (s : σ) : Except RunError String → Except RunError Unit × σ
  | .error why => (.error why, s)
  | .ok text => o.delivered s text

/-- Whether a run on a system succeeds, and the system that it leaves. -/
def runOn (s : σ) : Bool × σ := (perform o : StateM σ Bool) s

/-- The result of a run on a system. -/
def resultOn (s : σ) : Except RunError Unit :=
  ((analyseRecorded o : Recorded (StateM σ) _) (o.log? s) (o.opened s)).1.1

/-- What a run finds in its inputs, the system once it has, and how it ends. -/
structure Course (s : σ) (grammar graph : Input) (now : σ) : Prop where
  rules : o.Finds s o.grammarFile grammar
  edges : o.Finds s o.graphFile graph
  reached : Alike (o.logFiles s) (o.opened s) now
  result : o.resultOn s = (o.concluded now (o.resultsOf grammar graph)).1
  left : Alike (o.logFiles s) (o.concluded now (o.resultsOf grammar graph)).2 (o.runOn s).2

end Options

section Run

variable {o : Options} {hidden : Set (File σ)}

theorem ensures_deliver (now : σ) (text : String) :
    Ensures (fun log e => (∀ w ∈ log, file (Writer.handle w) ∈ hidden) ∧ e = now) (deliver o text).run
      fun r log e => r = (o.delivered now text).1 ∧ Kept hidden (o.delivered now text).2 log e := by
  unfold deliver Options.delivered
  cases o.outputFile with
  | none =>
      refine ensures_onFiles ?_
      rintro log _ ⟨inside, rfl⟩
      exact ⟨rfl, .refl inside⟩
  | some path =>
      dsimp only
      rcases run : (writeResults path text : StateM σ _) now with ⟨result, e⟩
      have written : Ensures (fun log e => (∀ w ∈ log, file (Writer.handle w) ∈ hidden) ∧ e = now)
          (liftM (writeResults path text : StateM σ _) : Attempt (StateM σ) _).run
          fun r log e' => r = .ok result ∧ Kept hidden e log e' := by
        refine ensures_onFiles ?_
        rintro log _ ⟨inside, rfl⟩
        rw [run]
        exact ⟨rfl, .refl inside⟩
      refine written.attempt (fun found => ?_) fun _ _ _ none => nomatch none.1
      rcases result with why | _
      · rintro log s ⟨⟨⟩, kept⟩
        exact ⟨rfl, kept⟩
      · rintro log s ⟨⟨⟩, kept⟩
        exact (steady_kept hidden e).note _ log s kept

theorem ensures_concluded (o : Options) (s : σ) :
    Ensures (o.Logged s) (analyse o).run fun r log e =>
      ∃ grammar graph now, o.Finds s o.grammarFile grammar ∧ o.Finds s o.graphFile graph ∧
        Alike (o.logFiles s) (o.opened s) now ∧ r = (o.concluded now (o.resultsOf grammar graph)).1 ∧
        Kept (o.logFiles s) (o.concluded now (o.resultsOf grammar graph)).2 log e := by
  rw [analyse_eq]
  refine (yields_investigate o (o.steady_logged s)).attempt (fun text => ?_) ?_
  · rintro log now ⟨⟨grammar, graph, first, second, results⟩, ⟨inside, reached⟩, -⟩
    have concluded := @ensures_deliver _ _ _ _ o (o.logFiles s) now text log now ⟨inside, rfl⟩
    refine ⟨grammar, graph, now, Options.finds_of_found first, Options.finds_of_found second, reached, ?_⟩
    rw [← results]
    exact concluded
  · rintro why log now ⟨⟨grammar, graph, first, second, results⟩, kept, -⟩
    refine ⟨grammar, graph, now, Options.finds_of_found first, Options.finds_of_found second, kept.2, ?_⟩
    rw [← results]
    exact ⟨rfl, .refl kept.1⟩

/-- A fault is reported at the very end of a run. -/
theorem run_cases (o : Options) (s : σ) :
    let e := ((analyseRecorded o : Recorded (StateM σ) _) (o.log? s) (o.opened s)).2
    Alike ∅ e (o.runOn s).2 ∧ ((o.runOn s).1 = true ↔ o.resultOn s = .ok ()) ∧
      ∀ why, o.resultOn s = .error why → ∃ said,
        displayed (o.runOn s).2 .error = said ++ s!"Error: {why.message}\n".toUTF8 := by
  have opened : (o.openLog : StateM σ _) s = (o.log? s, o.opened s) := rfl
  unfold Options.runOn Options.resultOn perform
  simp only [bind, StateT.bind, StateT.run, opened]
  rcases (analyseRecorded o : Recorded (StateM σ) _) (o.log? s) (o.opened s) with ⟨⟨why | _, log⟩, e⟩
  · have reported := FileLaws.print_error e s!"Error: {why.message}\n"
    refine ⟨reported.1, iff_of_false nofun nofun, ?_⟩
    rintro _ ⟨⟩
    exact ⟨_, reported.2⟩
  · exact ⟨.refl ∅ e, iff_of_true rfl rfl, fun _ => nofun⟩

/-- What the analysis ensures, whatever the log is told afterwards, is so at the end. -/
theorem ensures_analyseRecorded {P₀ P : Condition σ} {Q : Except RunError Unit → Condition σ}
    (opening : Ensures P₀ (tell (.plain [logOpening, o.logFile])) fun _ => P) (work : Ensures P (analyse o).run Q)
    (steady : ∀ r, Steady (Q r)) : Ensures P₀ (analyseRecorded o) Q := by
  refine opening.bind fun _ => work.bind fun r => ?_
  have closes : Ensures (Q r) (do closeLog o.logFile; return r) Q :=
    ((steady r).closeLog o.logFile).bind fun _ => .pure fun _ _ => id
  cases r with
  | ok _ => exact closes
  | error why => exact ((steady _).tell _).bind fun _ => closes

theorem run_course (o : Options) (s : σ) : ∃ grammar graph now, o.Course s grammar graph now := by
  have opening : Ensures (fun log e => log = o.log? s ∧ e = o.opened s)
      (tell (.plain [logOpening, o.logFile])) fun _ => o.Logged s := by
    rintro _ _ ⟨rfl, rfl⟩
    exact o.logged_opening s
  have work := ensures_analyseRecorded opening (ensures_concluded o s) fun r =>
    .any fun _ => .any fun _ => .any fun _ =>
      Steady.const.and (Steady.const.and (Steady.const.and (Steady.const.and (steady_kept _ _))))
  obtain ⟨grammar, graph, now, rules, edges, reached, result, kept⟩ := work _ _ ⟨rfl, rfl⟩
  refine ⟨grammar, graph, now, rules, edges, reached, result, ?_⟩
  exact kept.2.trans ((run_cases o s).1.mono (Set.empty_subset _))

end Run

end WordWalk
