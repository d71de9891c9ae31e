import WordWalk.Proofs.Checks

/-! # Logs that have been written before they are closed

On a disk with room for it a log takes whatever it is told, and what cannot wait has been written. So whoever
reads its file after more than that finds text of the log there.
-/

namespace WordWalk

open FileView

/-! ## What a log holds -/

section Tells

variable {d : Disk} {w : Writer (StateM Disk)} {place : Place} {told : String}

/-- What the file of a log holds and what waits come to what the log has been told. -/
structure Tells (place : Place) (told : String) (w : Writer (StateM Disk)) (d : Disk) : Prop where
  room : d.room = none
  node : Disk.OpenFile.node w.handle = .file place
  parts : ∃ written waiting : String, written ++ waiting = told ∧ d.octetsAt place = written.toUTF8 ∧
    Disk.OpenFile.position w.handle = written.utf8ByteSize ∧ w.waiting = waiting.toUTF8 ∧
    waiting.utf8ByteSize ≤ Writer.capacity

theorem overlay_end (old piece : ByteArray) : overlay old.size piece old = old ++ piece := by
  unfold overlay
  split
  · next nothing => rw [ByteArray.size_eq_zero_iff.mp nothing, ByteArray.append_empty]
  · refine ByteArray.ext ?_
    simp [ByteArray.data_append]

theorem write_whole (room : d.room = none) (position : Nat) (piece : ByteArray) :
    (Files.write (⟨.file place, position⟩ : Disk.OpenFile) piece : StateM Disk _) d =
      (⟨⟨.file place, position + piece.size⟩, piece.size, none⟩,
        d.store place (overlay position piece (d.octetsAt place))) := by
  have fits : d.fitting place position piece.size = piece.size := by rw [Disk.fitting, room]
  change d.write _ _ = _
  simp only [Disk.write, fits, lt_self_iff_false, if_false]
  rfl

theorem octetsAt_store (d : Disk) (place : Place) (octets : ByteArray) :
    (d.store place octets).octetsAt place = octets := (d.contents_store place octets (.file place)).trans (if_pos rfl)

namespace Tells

theorem wait (h : Tells place told w d) {part : String} (room : w.hasRoom part.toUTF8 = true) :
    Tells place (told ++ part) (w.wait part.toUTF8) d := by
  obtain ⟨written, waiting, rfl, octets, position, waits, -⟩ := h.parts
  rw [Writer.hasRoom, Bool.and_eq_true, decide_eq_true_iff, decide_eq_true_iff, waits] at room
  refine ⟨h.room, h.node, written, waiting ++ part, (String.append_assoc ..).symm, octets, position, ?_, ?_⟩
  · rw [Writer.wait, waits]
    exact (String.toByteArray_append ..).symm
  · rw [String.utf8ByteSize_append]
    exact room.2

theorem write (h : Tells place told w d) {written : String} (octets : d.octetsAt place = written.toUTF8)
    (position : Disk.OpenFile.position w.handle = written.utf8ByteSize) (part : String) :
    ∃ done e, (Files.write w.handle part.toUTF8 : StateM Disk _) d = (done, e) ∧
      done.taken = part.toUTF8.size ∧ done.fault? = none ∧
      ∀ waiting, waiting = ∅ → Tells place (written ++ part) { handle := done.handle, waiting } e := by
  obtain ⟨⟨node, start⟩, pieces⟩ := w
  cases h.node
  refine ⟨_, _, write_whole h.room start part.toUTF8, rfl, rfl, ?_⟩
  rintro _ rfl
  have room : (d.store place (overlay start part.toUTF8 (d.octetsAt place))).room = none := by
    rw [Disk.store, h.room]
    rfl
  refine ⟨room, rfl, written ++ part, "", String.append_empty, ?_, ?_, rfl, Nat.zero_le _⟩
  · rw [octetsAt_store, octets, show start = written.toUTF8.size from position, overlay_end]
    exact (String.toByteArray_append ..).symm
  · rw [String.utf8ByteSize_append]
    exact congrArg (· + part.utf8ByteSize) position

theorem flush (h : Tells place told w d) :
    ∃ w' e, (w.flush : StateM Disk _) d = ((w', none), e) ∧ w'.waiting.size = 0 ∧ Tells place told w' e := by
  by_cases nothing : w.waiting.size = 0
  · exact ⟨w, d, w.flush_nothing d nothing, nothing, h⟩
  · obtain ⟨written, waiting, rfl, octets, position, waits, -⟩ := h.parts
    obtain ⟨done, e, run, taken, fault, tells⟩ := h.write octets position waiting
    have empty : w.waiting.extract done.taken w.waiting.size = ∅ := by
      rw [taken, waits]
      exact ByteArray.extract_eq_empty_iff.mpr (by simp)
    refine ⟨w.after done, e, ?_, ?_, tells _ empty⟩
    · rw [w.flush_run d nothing, waits, run]
      simp only [fault]
    · rw [Writer.after, empty]
      rfl

theorem putAfter (h : Tells place told w d) (nothing : w.waiting.size = 0) (part : String) :
    ∃ w' e, (w.putAfter part.toUTF8 : StateM Disk _) d = ((w', none), e) ∧ Tells place (told ++ part) w' e := by
  cases room : w.hasRoom part.toUTF8 with
  | true => exact ⟨_, d, Writer.putAfter_room d room, h.wait room⟩
  | false =>
      obtain ⟨written, waiting, rfl, octets, position, waits, -⟩ := h.parts
      have empty := ByteArray.size_eq_zero_iff.mp nothing
      have none : waiting = "" := String.toByteArray_inj.mp (waits.symm.trans empty)
      obtain ⟨done, e, run, -, fault, tells⟩ := h.write octets position part
      rw [none, String.append_empty]
      refine ⟨{ w with handle := done.handle }, e, ?_, tells _ empty⟩
      rw [Writer.putAfter_run d room, run]
      simp only [fault]

theorem put (h : Tells place told w d) (part : String) :
    ∃ w' e, (w.put part.toUTF8 : StateM Disk _) d = ((w', none), e) ∧ Tells place (told ++ part) w' e := by
  cases room : w.hasRoom part.toUTF8 with
  | true => exact ⟨_, d, Writer.put_room d room, h.wait room⟩
  | false =>
      obtain ⟨w', e, flushed, nothing, between⟩ := h.flush
      obtain ⟨w'', f, run, after⟩ := between.putAfter nothing part
      exact ⟨w'', f, (Writer.put_after room flushed).trans run, after⟩

theorem putAll (h : Tells place told w d) (parts : List String) :
    ∃ w' e, (w.putAll parts : StateM Disk _) d = ((w', none), e) ∧
      Tells place (told ++ String.join parts) w' e := by
  induction parts generalizing w d told with
  | nil => exact ⟨w, d, rfl, by rwa [show String.join [] = "" from rfl, String.append_empty]⟩
  | cons part rest ih =>
      obtain ⟨w', e, first, between⟩ := h.put part
      obtain ⟨w'', f, run, after⟩ := ih between
      refine ⟨w'', f, ?_, ?_⟩
      · rw [Writer.putAll]
        simp only [bind, StateT.bind, first, run]
      · rwa [String.join_cons, ← String.append_assoc]

theorem read (h : Tells place told w d) (much : Writer.capacity < told.utf8ByteSize) :
    ∃ text, d.contents (.file place) = text.toUTF8 ∧ text ≠ "" := by
  obtain ⟨written, waiting, rfl, octets, -, -, room⟩ := h.parts
  refine ⟨written, octets, fun nothing => ?_⟩
  rw [nothing, String.utf8ByteSize_append] at much
  have : "".utf8ByteSize = 0 := rfl
  omega

end Tells

end Tells

/-- The log has a file and has been told a text. -/
def Told (place : Place) (told : String) : Condition Disk := fun log d => ∃ w ∈ log, Tells place told w d

theorem Told.tell (place : Place) (told : String) (line : LogLine) :
    Ensures (Told place told) (tell line) fun _ => Told place (told ++ String.join line.parts) := by
  rintro _ d ⟨w, rfl, tells⟩
  obtain ⟨w', e, run, after⟩ := tells.putAll line.parts
  unfold WordWalk.tell
  simp only [bind, StateT.bind, run]
  exact ⟨w', rfl, after⟩

/-! ## A grammar that is a log -/

/-- A log is not JSON from its first letter on. -/
theorem Json.parse_log {text : String} {cs : List Char} (letters : text.toList = 'V' :: cs) :
    Json.parse text = .error ⟨.expectedValue, 1, 1⟩ := by
  have fault : Reader.any ('V' :: cs).length Reader.maxDepth ('V' :: cs) =
      .error (.at .expectedValue ('V' :: cs)) := rfl
  have place : byteCount ('V' :: cs) - (byteCount ('V' :: cs) - 1) = 1 := by
    have : byteCount ('V' :: cs) = 1 + byteCount cs := rfl
    omega
  have letter : 'V'.utf8Size = 1 := by decide
  have there : locate 1 1 cs 0 = (1, 1) := by cases cs <;> rfl
  have located : locate 1 0 ('V' :: cs) 1 = (1, 1) := by simp [locate, letter, there]
  simp only [Json.parse, Json.read, readAll, letters, fault, bind, Except.bind, Fault.locatedIn, Fault.at, place,
    located]

section Run

variable {o : Options} {d : Disk} {place : Place} {told : String} {P : Condition Disk} {α : Type}

theorem Ensures.right {x : Recorded (StateM Disk) α} {Q : α → Condition Disk} {fact : Prop} (h : Ensures P x Q) :
    Ensures (fun log d => fact ∧ P log d) x Q := fun log d holds => h log d holds.2

theorem Yields.result {x : Attempt (StateM Disk) α} {R : Except RunError α → Prop} (h : Yields P x R) :
    Ensures P x.run fun r _ _ => R r := Ensures.mono h fun _ _ _ holds => holds.1

theorem yields_admitted {role path : String} (known : ∀ log e, P log e → kindAt? e path = some .file) :
    Yields P (checkInput role path) (· = .ok ()) := by
  unfold checkInput
  refine .afterAsking (kindAt? · path) (fun e => FileLaws.kind?_run e path) fun kind seen => ?_
  obtain ⟨log, e, holds, same⟩ := seen
  cases same.symm.trans (known log e holds)
  exact .pure rfl

namespace Options

def openingLine (o : Options) : LogLine := .plain [logOpening, o.logFile]

def grammarLine (o : Options) : LogLine := .plain ["\n[STEP 1] Loading grammar from ", o.grammarFile, "..."]

/-- What the log has been told when the grammar is read. -/
def toldBefore (o : Options) : String :=
  String.join o.openingLine.parts ++ String.join o.grammarLine.parts

theorem size_toldBefore (o : Options) :
    o.toldBefore.utf8ByteSize = 67 + o.logFile.utf8ByteSize + o.grammarFile.utf8ByteSize := by
  have opening : logOpening.utf8ByteSize = 31 := by decide
  have step : "\n[STEP 1] Loading grammar from ".utf8ByteSize = 31 := by decide
  have dots : "...".utf8ByteSize = 3 := by decide
  have ending : "\n".utf8ByteSize = 1 := by decide
  have nothing : (String.join []).utf8ByteSize = 0 := rfl
  simp only [toldBefore, openingLine, grammarLine, LogLine.parts, List.cons_append, List.nil_append,
    String.join_cons, String.utf8ByteSize_append, opening, step, dots, ending, nothing]
  omega

/-- The fault of a grammar that is text of a log. -/
def logFault (o : Options) : RunError := .load (.parse o.grammarFile ⟨.expectedValue, 1, 1⟩)

/-- The log of a run is the file of its grammar, which is there to be read. -/
structure Crosses (o : Options) (d : Disk) (place : Place) : Prop where
  log : o.logFile? d = some (.file place)
  room : (o.opened d).room = none
  there : leads (o.opened d) o.grammarFile = some (.file place)
  readable : unreadable? (o.opened d) o.grammarFile = none
  edges : kindAt? (o.opened d) o.graphFile = some .file
  much : Writer.capacity < o.toldBefore.utf8ByteSize

end Options

namespace Options.Crosses

variable (h : o.Crosses d place)
include h

theorem told_opened : Told place "" (o.log? d) (o.opened d) := by
  obtain ⟨w, log, node, empty, start, nothing⟩ := unused_opened h.log rfl
  exact ⟨w, log, h.room, node, "", "", rfl, empty, start, nothing, Nat.zero_le _⟩

/-- Once more has been told than can wait, the grammar is read from the log. -/
theorem ensures_logFault :
    Ensures (fun log e => o.Logged d log e ∧ Told place (String.join o.openingLine.parts) log e)
      (prepareIndex o).run fun r _ _ => r = .error o.logFault := by
  have told : Ensures (fun log e => o.Logged d log e ∧ Told place (String.join o.openingLine.parts) log e)
      (note o.grammarLine).run fun r log e => r = .ok () ∧ o.Logged d log e ∧ Told place o.toldBefore log e :=
    Ensures.bind (((o.steady_logged d).tell _).and (Told.tell place _ _))
      fun _ => .pure fun _ _ holds => ⟨rfl, holds⟩
  unfold prepareIndex
  refine Ensures.attempt told (fun _ => .right (Yields.result ?_)) (fun e _ _ holds => nomatch holds.1)
  refine .afterAsking (text · o.grammarFile) (readText_run · _) fun contents seen => ?_
  obtain ⟨log, e, ⟨⟨⟨inside, alike⟩, begun⟩, w, -, tells⟩, same⟩ := seen
  obtain ⟨text, octets, some⟩ := tells.read h.much
  have there : leads e o.grammarFile = Option.some (.file place) := (alike.leads _).trans h.there
  have read : FileView.text e o.grammarFile = .ok text := by
    have holds : FileView.contents e (Node.file place) = text.toUTF8 := octets
    rw [text_of_leads there rfl, reading, alike.unreadable, h.readable, holds]
    have back : String.fromUTF8? text.toUTF8 = Option.some text := dif_pos text.isValidUTF8
    rw [back]
    rfl
  cases (begun _ h.log rfl).read rfl there read with
  | inl nothing => exact absurd nothing some
  | inr letters =>
      obtain ⟨cs, letters⟩ := letters
      have failed : loadWith parseGrammar o.grammarFile (.ok text) =
          .error (.parse o.grammarFile ⟨.expectedValue, 1, 1⟩) := by
        simp [loadWith, parseGrammar, Json.parse_log letters, Except.mapError, bind, Except.bind]
      cases same.symm.trans read
      rw [failed]
      exact .throw rfl

theorem result : o.resultOn d = .error o.logFault := by
  have rules : kindAt? (o.opened d) o.grammarFile = some .file := congrArg (Option.map kind) h.there
  have still {log e path kind} (holds : o.Logged d log e ∧ Told place (String.join o.openingLine.parts) log e)
      (before : kindAt? (o.opened d) path = some kind) : kindAt? e path = some kind :=
    (congrArg (Option.map FileView.kind) (holds.1.1.2.leads path)).trans before
  have work : Ensures (fun log e => o.Logged d log e ∧ Told place (String.join o.openingLine.parts) log e)
      (analyse o).run fun r _ _ => r = .error o.logFault := by
    unfold analyse
    refine Ensures.attempt (yields_admitted fun _ _ holds => still holds rules) (fun _ => .right ?_)
      fun e _ _ holds => nomatch holds.1
    refine Ensures.attempt (yields_admitted fun _ _ holds => still holds h.edges) (fun _ => .right ?_)
      fun e _ _ holds => nomatch holds.1
    refine Ensures.attempt h.ensures_logFault (fun index _ _ none => nomatch none) fun e _ _ failed => ?_
    rw [Except.error.inj failed]
  have opening : Ensures (fun log e => log = o.log? d ∧ e = o.opened d) (tell o.openingLine)
      fun _ log e => o.Logged d log e ∧ Told place (String.join o.openingLine.parts) log e := by
    rintro _ _ ⟨rfl, rfl⟩
    have told := Told.tell place "" o.openingLine _ _ h.told_opened
    rw [String.empty_append] at told
    exact ⟨o.logged_opening d, told⟩
  exact ensures_analyseRecorded opening work (fun _ => Steady.const) _ _ ⟨rfl, rfl⟩

end Options.Crosses

end Run

/-- A path that stays where it is a number of times. -/
def detour : Nat → String
  | 0 => "cfg.json"
  | n + 1 => "./" ++ detour n

theorem size_detour (n : Nat) : (detour n).utf8ByteSize = 2 * n + 8 := by
  induction n with
  | zero => rfl
  | succ n ih =>
      rw [detour, String.utf8ByteSize_append, ih]
      show 2 + _ = _
      omega

theorem toList_detour (n : Nat) : (detour (n + 1)).toList = '.' :: '/' :: (detour n).toList := by
  rw [detour, String.toList_append]
  rfl

theorem pathNames_detour (n : Nat) : Disk.pathNames (detour n) = List.replicate n "." ++ ["cfg.json"] := by
  induction n with
  | zero => decide +kernel
  | succ n ih =>
      rw [Disk.pathNames, toList_detour, List.replicate_succ, List.cons_append, ← ih]
      rfl

theorem enter_dots (d : Disk) (here : Place) (n : Nat) : d.enter here (List.replicate n ".") = .ok here := by
  induction n with
  | zero => rfl
  | succ n ih =>
      rw [List.replicate_succ, Disk.enter, if_pos (.inr rfl)]
      exact ih

theorem resolve_detour (d : Disk) {n : Nat} (fits : 2 * n + 8 ≤ Disk.maxPathSize)
    (plain : d.links[d.home ++ ["cfg.json"]]? = none) :
    d.resolve (detour n) = .ok ⟨d.home ++ ["cfg.json"], false⟩ := by
  have unended : (detour n).toList.contains '\x00' = false := by
    clear fits
    induction n with
    | zero => decide
    | succ n ih =>
        rw [toList_detour]
        simpa using ih
  have relative : (detour n).startsWith "/" = false := by
    rw [String.startsWith_string_eq_false_iff]
    cases n with
    | zero => decide
    | succ n =>
        rw [toList_detour]
        simp
  have some : detour n ≠ "" := by
    intro none
    have size := size_detour n
    rw [none] at size
    cases size
  have short : ¬ Disk.maxPathSize < (detour n).utf8ByteSize := by
    rw [size_detour]
    omega
  have kept : (List.replicate n "." ++ ["cfg.json"]).take (n + 1) = List.replicate n "." ++ ["cfg.json"] :=
    List.take_of_length_le (by simp)
  have ends : d.follow Disk.maxLinks (d.home ++ ["cfg.json"]) = .ok (d.home ++ ["cfg.json"]) := by
    rw [Disk.maxLinks, Disk.follow, plain]
  rw [Disk.resolve, Disk.locate, unended, if_neg Bool.false_ne_true, if_neg some, if_neg short, pathNames_detour, relative]
  simp [kept, enter_dots, ends, bind, Except.bind, pure, Except.pure]

theorem error_end (path : String) (why : Json.Error) : ∃ front : String,
    s!"Error: {(RunError.load (.parse path why)).message}\n" = front ++ (toString why.column ++ "\n") := by
  have message : ∃ front : String,
      (RunError.load (.parse path why)).message = front ++ toString why.column := by
    refine ⟨"Failed to parse JSON from '" ++ path ++ "': " ++
      (why.cause.message ++ (" at line " ++ toString why.line ++ " column ")), ?_⟩
    show "Failed to parse JSON from '" ++ path ++ "': " ++
      (why.cause.message ++ (" at line " ++ toString why.line ++ " column " ++ toString why.column)) = _
    simp only [String.append_assoc]
  obtain ⟨front, message⟩ := message
  refine ⟨"Error: " ++ front, ?_⟩
  rw [message]
  show "Error: " ++ (front ++ toString why.column) ++ "\n" = _
  simp only [String.append_assoc]

theorem errors_differ (path : String) (said said' : ByteArray) (cause other : Json.Cause) :
    said ++ s!"Error: {(RunError.load (.parse path ⟨cause, 1, 1⟩)).message}\n".toUTF8 ≠
      said' ++ s!"Error: {(RunError.load (.parse path ⟨other, 1, 0⟩)).message}\n".toUTF8 := by
  obtain ⟨front, ends⟩ := error_end path ⟨cause, 1, 1⟩
  obtain ⟨front', ends'⟩ := error_end path ⟨other, 1, 0⟩
  rw [ends, ends']
  intro same
  have apart (said : ByteArray) (front : String) (ending : String) :
      (said ++ (front ++ ending).toUTF8).data.toList =
        (said ++ front.toUTF8).data.toList ++ ending.toUTF8.data.toList := by
    have both : (front ++ ending).toUTF8 = front.toUTF8 ++ ending.toUTF8 := String.toByteArray_append ..
    rw [both, ← ByteArray.append_assoc, ByteArray.data_append, Array.toList_append]
  have octets := congrArg (fun octets => octets.data.toList) same
  dsimp only at octets
  rw [apart, apart] at octets
  have last := (List.append_inj' octets rfl).2
  revert last
  decide +kernel

theorem failing_of_empty {o : Options} {grammar graph : Input} {now : Disk} (rules : grammar.kind = some .file)
    (edges : graph.kind = some .file) (empty : grammar.contents = .ok "") :
    FirstFailing (o.fault? grammar graph now · = none) Check.all 3 .grammarJson ∧
      o.fault? grammar graph now .grammarJson = some (.load (.parse o.grammarFile ⟨.endInValue, 1, 0⟩)) := by
  have failing : o.fault? grammar graph now .grammarJson =
      some (.load (.parse o.grammarFile ⟨.endInValue, 1, 0⟩)) := by
    rw [Options.fault?, empty]
    rfl
  refine ⟨⟨rfl, ?_, ?_⟩, failing⟩
  · rw [failing]
    exact Option.some_ne_none _
  · intro j less check placed
    have earlier : j = 0 ∨ j = 1 ∨ j = 2 := by omega
    obtain rfl | rfl | rfl := earlier
    · cases placed
      rw [Options.fault?, rules]
      rfl
    · cases placed
      rw [Options.fault?, edges]
      rfl
    · cases placed
      rw [Options.fault?, empty]
      rfl

def Options.crossed (path : String) : Options := { grammarFile := path, logFile := path }

def cfgPlace : Place := ["home", "user", "cfg.json"]

theorem entry_cfg : Disk.small.entryAt cfgPlace = some (.file true true) := by decide +kernel

section Crossed

variable {path : String} (resolved : Disk.small.resolve path = .ok ⟨cfgPlace, false⟩)
include resolved

theorem opening_crossed : Disk.small.opening path = .ok (.file cfgPlace) :=
  Disk.opening_eq_ok.mpr ⟨_, resolved, rfl, by decide +kernel,
    Disk.openingAt_eq_ok.mpr (.inl ⟨_, entry_cfg, nofun, nofun, rfl⟩)⟩

theorem lookup_crossed : Disk.small.lookup path = .ok (cfgPlace, .file true true) :=
  Disk.lookup_eq_ok.mpr ⟨_, resolved, by decide +kernel, rfl, entry_cfg, fun _ => rfl⟩

theorem log_crossed :
    ((Options.crossed path).openLog : StateM Disk _) Disk.small =
      (some { handle := (⟨.file cfgPlace, 0⟩ : Disk.OpenFile) }, Disk.small.opened (.file cfgPlace)) := by
  have created : (Files.create path : StateM Disk _) Disk.small =
      (.ok (⟨.file cfgPlace, 0⟩ : Disk.OpenFile), Disk.small.opened (.file cfgPlace)) := by
    simp only [Files.create, opening_crossed resolved]
  have loud : (Options.crossed path).quiet = false := rfl
  have place : (Options.crossed path).logFile = path := rfl
  rw [Options.openLog, loud, place]
  simp only [Bool.false_eq_true, if_false, openLog, bind, StateT.bind, created]
  rfl

theorem opened_crossed : (Options.crossed path).opened Disk.small = Disk.small.opened (.file cfgPlace) :=
  congrArg Prod.snd (log_crossed resolved)

theorem crosses (much : Writer.capacity < (Options.crossed path).toldBefore.utf8ByteSize) :
    (Options.crossed path).Crosses Disk.small cfgPlace := by
  have opened := opened_crossed resolved
  have made : Opened Disk.small path (⟨.file cfgPlace, 0⟩ : Disk.OpenFile) (Disk.small.opened (.file cfgPlace)) :=
    Disk.opens (opening_crossed resolved)
  constructor
  · exact congrArg (fun log => (log.1).map fun w => file (Writer.handle w)) (log_crossed resolved)
  · rw [opened]
    decide +kernel
  · rw [opened]
    exact made.leads
  · rw [opened]
    have there : leads Disk.small path ≠ none := by
      rw [show leads Disk.small path = some (.file cfgPlace) from
        Disk.leads_eq_some.mpr ⟨_, _, lookup_crossed resolved, rfl⟩]
      exact Option.some_ne_none _
    refine (made.differs.unreadable path there).trans ?_
    change Disk.unreadable? Disk.small path = none
    rw [Disk.unreadable?, lookup_crossed resolved]
  · rw [opened]
    change kindAt? (Disk.small.opened (.file cfgPlace)) "graph.json" = some .file
    decide +kernel
  · exact much

/-- The grammar is empty once the log has been opened, but when it is read there is text of the log. -/
theorem crossed_differs (much : Writer.capacity < (Options.crossed path).toldBefore.utf8ByteSize) :
    let o := Options.crossed path
    let before := o.opened Disk.small
    let fault := o.fault? (input before o.grammarFile) (input before o.graphFile) before
    ∃ e, FirstFailing (fault · = none) Check.all 3 .grammarJson ∧ fault .grammarJson = some e ∧
      ∀ said, displayed (o.runOn Disk.small).2 .error ≠ said ++ s!"Error: {e.message}\n".toUTF8 := by
  intro o before fault
  have crosses := crosses resolved much
  have rules : kindAt? before o.grammarFile = some .file := congrArg (Option.map kind) crosses.there
  have empty : text before o.grammarFile = .ok "" := by
    obtain ⟨w, -, -, empty, -⟩ := Options.unused_opened crosses.log rfl
    rw [text_of_leads crosses.there rfl, reading, crosses.readable, empty]
    rfl
  have failing : FirstFailing (fault · = none) Check.all 3 .grammarJson ∧
      fault .grammarJson = some (.load (.parse o.grammarFile ⟨.endInValue, 1, 0⟩)) :=
    failing_of_empty rules crosses.edges empty
  refine ⟨_, failing.1, failing.2, fun said same => ?_⟩
  obtain ⟨said', reported⟩ := (run_cases o Disk.small).2.2 _ crosses.result
  exact errors_differ _ _ _ _ _ (reported.symm.trans same)

end Crossed

/-- Two lines of a log with a long path in each of them are more than can wait. And a log on standard output is
    seen there also if a check fails. -/
theorem crossed_log :
    (let o := Options.crossed (detour 2043)
     let before := o.opened Disk.small
     let fault := o.fault? (input before o.grammarFile) (input before o.graphFile) before
     ∃ e, FirstFailing (fault · = none) Check.all 3 .grammarJson ∧ fault .grammarJson = some e ∧
       ∀ said, displayed (o.runOn Disk.small).2 .error ≠ said ++ s!"Error: {e.message}\n".toUTF8) ∧
    let o : Options := { grammarFile := "missing.json", logFile := "/dev/stdout" }
    let before := o.opened Disk.small
    o.fault? (input before o.grammarFile) (input before o.graphFile) before .grammarPath ≠ none ∧
      displayed (o.runOn Disk.small).2 .output ≠ displayed Disk.small .output := by
  have much : Writer.capacity < (Options.crossed (detour 2043)).toldBefore.utf8ByteSize := by
    rw [Options.size_toldBefore, Options.crossed, size_detour]
    decide
  have resolved : Disk.small.resolve (detour 2043) = .ok ⟨cfgPlace, false⟩ :=
    resolve_detour Disk.small (by decide) (by decide +kernel)
  have nothing : kindAt? (({ grammarFile := "missing.json", logFile := "/dev/stdout" } : Options).opened Disk.small)
      "missing.json" = none := by decide +kernel
  refine ⟨crossed_differs resolved much, ?_, fun same => ?_⟩
  · rw [Options.fault?, input, nothing]
    exact Option.some_ne_none _
  · exact absurd (congrArg ByteArray.size same) (by decide +kernel)

end WordWalk
