import WordWalk.Proofs.Recording
import WordWalk.Run

/-! # The file of a log

A log writes to one file only. As long as nothing else writes there, whoever reads this file reads
nothing, or octets that begin like the log.
-/

namespace WordWalk

open FileView

variable {σ : Type} [Files (StateM σ)] [FileView σ] {hidden : Set (File σ)} {base s e : σ} {f : File σ}
  {path text : String}

/-- The log writes to a hidden file, and all other files are as they were. -/
def Kept (hidden : Set (File σ)) (base : σ) : Condition σ := fun log s =>
  (∀ w ∈ log, file (Writer.handle w) ∈ hidden) ∧ Alike hidden base s

theorem Kept.refl {log : Option (Writer (StateM σ))} (inside : ∀ w ∈ log, file (Writer.handle w) ∈ hidden) :
    Kept hidden s log s := ⟨inside, .refl _ _⟩

theorem Kept.of_mem {w : Writer (StateM σ)} (mem : file w.handle ∈ hidden) (alike : Alike hidden base s) :
    Kept hidden base (some w) s := by
  refine ⟨?_, alike⟩
  rintro _ ⟨⟩
  exact mem

theorem steady_kept (hidden : Set (File σ)) (base : σ) : Steady (Kept hidden base) where
  wait {w _} _ holds := .of_mem (holds.1 w rfl) holds.2
  flush {w _ _ _} holds wrote := .of_mem (wrote.file ▸ holds.1 w rfl) (holds.2.trans (wrote.alone (holds.1 w rfl)))
  through {w _ _ _} _ holds _ wrote :=
    .of_mem (wrote.file ▸ holds.1 w rfl) (holds.2.trans (wrote.alone (holds.1 w rfl)))
  say holds alike := ⟨holds.1, holds.2.trans (alike.mono (Set.empty_subset _))⟩

/-! ## How a log begins -/

/-- The first part of every log. -/
def logOpening : String := "Verbose logging initialized to "

/-- Octets that begin like a log. -/
def Opens (octets : ByteArray) : Prop := octets.data[0]? = some 86

instance (octets : ByteArray) : Decidable (Opens octets) := inferInstanceAs (Decidable (_ = _))

theorem Opens.size_pos {octets : ByteArray} (opens : Opens octets) : 0 < octets.size := by
  obtain ⟨inside, -⟩ := Array.getElem?_eq_some_iff.mp opens
  exact inside

theorem Opens.append {octets : ByteArray} (opens : Opens octets) (more : ByteArray) : Opens (octets ++ more) := by
  rw [Opens, ByteArray.data_append, Array.getElem?_append_left opens.size_pos]
  exact opens

theorem Opens.extract {octets : ByteArray} (opens : Opens octets) {n : Nat} (some : 0 < n) :
    Opens (octets.extract 0 n) := by
  have inside : 0 < min n octets.data.size := lt_min some opens.size_pos
  rw [Opens, ByteArray.data_extract, Array.getElem?_extract, if_pos (by omega), Nat.zero_add]
  exact opens

theorem overlay_start (piece : ByteArray) : overlay 0 piece ∅ = piece := by
  unfold overlay
  split
  · next nothing => exact (ByteArray.size_eq_zero_iff.mp nothing).symm
  · refine ByteArray.ext ?_
    have empty : (∅ : ByteArray).data = #[] := rfl
    simp only [ByteArray.data_append, ByteArray.data_extract, empty]
    simp

theorem Opens.overlay {octets : ByteArray} (opens : Opens octets) {position : Nat} (later : 0 < position)
    (piece : ByteArray) : Opens (overlay position piece octets) := by
  unfold WordWalk.overlay
  split
  · exact opens
  · exact (((opens.extract later).append _).append _).append _

/-- What the log's file holds, and then what waits, begins like a log. -/
def Begun (f : File σ) : Condition σ := fun log s =>
  ∃ w ∈ log, file (Writer.handle w) = f ∧
    ((contents s f = ∅ ∧ position (Writer.handle w) = 0 ∧ Opens (Writer.waiting w)) ∨
      Opens (contents s f) ∧ 0 < position (Writer.handle w))

theorem steady_begun (regular : kind f = .file) : Steady (Begun f) where
  wait piece holds := by
    obtain ⟨_, ⟨⟩, place, begun⟩ := holds
    refine ⟨_, rfl, place, ?_⟩
    cases begun with
    | inl waits => exact .inl ⟨waits.1, waits.2.1, waits.2.2.append piece⟩
    | inr there => exact .inr there
  flush {w s e done} holds wrote := by
    obtain ⟨_, ⟨⟩, rfl, begun⟩ := holds
    refine ⟨_, rfl, wrote.file, ?_⟩
    have moved : position (w.after done).handle = position w.handle + done.taken := wrote.position
    rw [moved, wrote.contents regular]
    cases begun with
    | inl waits =>
        obtain ⟨empty, start, opens⟩ := waits
        rw [empty, start, overlay_start, Nat.zero_add]
        cases taken : done.taken with
        | zero =>
            refine .inl ⟨?_, rfl, ?_⟩
            · exact ByteArray.extract_eq_empty_iff.mpr (by simp)
            · rw [Writer.after, taken, ByteArray.extract_zero_size]
              exact opens
        | succ n => exact .inr ⟨opens.extract n.succ_pos, n.succ_pos⟩
    | inr there => exact .inr ⟨there.1.overlay there.2 _, Nat.add_pos_left there.2 _⟩
  through {w s e done} piece holds nothing wrote := by
    obtain ⟨_, ⟨⟩, rfl, begun⟩ := holds
    refine ⟨_, rfl, wrote.file, ?_⟩
    cases begun with
    | inl waits => exact absurd nothing waits.2.2.size_pos.ne'
    | inr there =>
        refine .inr ?_
        dsimp only
        rw [wrote.contents regular, wrote.position]
        exact ⟨there.1.overlay there.2 _, Nat.add_pos_left there.2 _⟩
  say {log s e} holds alike := by
    obtain ⟨w, there, place, begun⟩ := holds
    rw [← alike.contents f (Set.notMem_empty f)] at begun
    exact ⟨w, there, place, begun⟩

/-- Nothing has been told yet. -/
def Unused (f : File σ) : Condition σ := fun log s =>
  ∃ w ∈ log, file (Writer.handle w) = f ∧ contents s f = ∅ ∧ position (Writer.handle w) = 0 ∧
    Writer.waiting w = ∅

theorem Unused.tell [FileLaws σ] (regular : kind f = .file) (parts : List String) :
    Ensures (Unused f) (tell (.plain (logOpening :: parts))) fun _ => Begun f := by
  rintro _ s ⟨w, rfl, place, empty, start, nothing⟩
  have room : w.hasRoom logOpening.toUTF8 = true := by
    rw [Writer.hasRoom, nothing]
    decide +kernel
  have opens : Opens (w.wait logOpening.toUTF8).waiting := by
    have waits : (w.wait logOpening.toUTF8).waiting = ∅ ++ logOpening.toUTF8 := by rw [Writer.wait, nothing]
    rw [waits]
    decide +kernel
  have first : (w.putAll (logOpening :: (parts ++ ["\n"])) : StateM σ _) s =
      ((w.wait logOpening.toUTF8).putAll (parts ++ ["\n"]) : StateM σ _) s := by
    rw [Writer.putAll]
    simp only [bind, StateT.bind, Writer.put_room s room]
  have begun : Begun f (some (w.wait logOpening.toUTF8)) s := ⟨_, rfl, place, .inl ⟨empty, start, opens⟩⟩
  have told := (steady_begun regular).putAll (parts ++ ["\n"]) begun
  rw [← first] at told
  unfold WordWalk.tell
  simp only [bind, StateT.bind, LogLine.parts, List.cons_append]
  rcases run : (w.putAll (logOpening :: (parts ++ ["\n"])) : StateM σ _) s with ⟨⟨w', _ | why⟩, e⟩
  · rw [run] at told
    exact told
  · rw [run] at told
    exact (steady_begun regular).say told (FileLaws.print_error e _).1

/-! ## Reading the file of a log -/

/-- A text that a log may begin with. -/
def LogText (text : String) : Prop := text = "" ∨ ∃ cs, text.toList = 'V' :: cs

/-- Only one character begins with the octet. The octets of longer characters are greater. -/
theorem char_of_octet {c : Char} (octet : (String.utf8EncodeChar c)[0]? = some 86) : c = 'V' := by
  have value (n : Nat) (same : UInt8.ofNat n = 86) : n % 256 = 86 := by
    have := congrArg UInt8.toNat same
    rwa [UInt8.toNat_ofNat'] at this
  unfold String.utf8EncodeChar at octet
  dsimp only at octet
  split at octet
  · next small =>
    have number := value _ (Option.some.inj octet)
    refine Char.ext (UInt32.toNat_inj.mp ?_)
    change c.val.toNat = 86
    omega
  all_goals
    split at octet
    · have := value _ (Option.some.inj octet)
      omega
    · split at octet
      all_goals
        have := value _ (Option.some.inj octet)
        omega

theorem logText_of_octets {text : String} (begins : text.toUTF8 = ∅ ∨ Opens text.toUTF8) : LogText text := by
  cases begins with
  | inl nothing => exact .inl (String.toByteArray_inj.mp nothing)
  | inr opens =>
      cases letters : text.toList with
      | nil =>
          have nothing : text.toUTF8 = ∅ := by
            rw [String.toUTF8, ← String.utf8Encode_toList, letters]
            rfl
          rw [nothing] at opens
          cases opens.size_pos
      | cons c cs =>
          refine .inr ⟨cs, ?_⟩
          have octets : text.toUTF8.data[0]? = (String.utf8EncodeChar c)[0]? := by
            have some : 0 < (String.utf8EncodeChar c).length := by
              rw [String.length_utf8EncodeChar]
              exact c.utf8Size_pos
            rw [String.toUTF8, ← String.utf8Encode_toList, letters, List.utf8Encode, List.data_toByteArray,
              List.flatMap_cons, List.getElem?_toArray, List.getElem?_append_left some]
          rw [letters, char_of_octet (octets.symm.trans opens)]

/-- What is read of a log's file, if anything. -/
theorem Begun.read [FileLaws σ] {log : Option (Writer (StateM σ))} (begun : Begun f log s)
    (regular : kind f = .file) (there : leads s path = some f) (read : FileView.text s path = .ok text) :
    LogText text := by
  rw [text_of_leads there regular] at read
  obtain ⟨w, -, -, begun⟩ := begun
  have octets : contents s f = ∅ ∨ Opens (contents s f) := begun.imp And.left And.left
  rw [octets_of_reading read] at octets
  exact logText_of_octets octets

/-! ## Opening the log -/

namespace Options

variable (o : Options) (s : σ)

/-- The log of a run, if there is one, as it has been opened. -/
def log? (o : Options) (s : σ) : Option (Writer (StateM σ)) := ((o.openLog : StateM σ _) s).1

/-- The system once the log has been opened. -/
def opened (o : Options) (s : σ) : σ := ((o.openLog : StateM σ _) s).2

/-- The file that a run writes its log to, if it has a log. -/
def logFile? (o : Options) (s : σ) : Option (File σ) := (o.log? s).map fun w => file w.handle

/-- The files that a run writes its log to: one at most. -/
def logFiles (o : Options) (s : σ) : Set (File σ) := { f | o.logFile? s = some f }

theorem log_inside : ∀ w ∈ o.log? s, file (Writer.handle w) ∈ o.logFiles s := by
  intro w log
  have there : o.logFile? s = some (file w.handle) := by rw [logFile?, log, Option.map_some]
  exact there

variable [FileLaws σ]

theorem openLog_cases :
    (o.log? s = none ∧ Alike ∅ s (o.opened s)) ∨
      ∃ handle, o.log? s = some { handle } ∧ Opened s o.logFile handle (o.opened s) := by
  unfold log? opened openLog
  cases o.quiet with
  | true => exact .inl ⟨rfl, .refl _ s⟩
  | false =>
      simp only [Bool.false_eq_true, if_false, WordWalk.openLog, bind, StateT.bind]
      cases FileLaws.create_run s o.logFile with
      | inl refused =>
          obtain ⟨why, run, -⟩ := refused
          rw [run]
          exact .inl ⟨rfl, (FileLaws.print_error s _).1⟩
      | inr made =>
          obtain ⟨handle, e, run, made⟩ := made
          rw [run]
          exact .inr ⟨handle, rfl, made⟩

theorem differs_opened : Differs (o.logFiles s) s (o.opened s) := by
  cases o.openLog_cases s with
  | inl unlogged => exact (unlogged.2.mono (Set.empty_subset _)).differs
  | inr logged =>
      obtain ⟨handle, log, made⟩ := logged
      exact made.alone (by simp [logFiles, logFile?, log])

variable {o s}

theorem leads_logFile (log : o.logFile? s = some f) : leads (o.opened s) o.logFile = some f := by
  cases o.openLog_cases s with
  | inl unlogged =>
      rw [logFile?, unlogged.1] at log
      cases log
  | inr logged =>
      obtain ⟨handle, there, made⟩ := logged
      rw [logFile?, there] at log
      cases log
      exact made.leads

theorem unused_opened (log : o.logFile? s = some f) (regular : kind f = .file) :
    Unused f (o.log? s) (o.opened s) := by
  cases o.openLog_cases s with
  | inl unlogged =>
      rw [logFile?, unlogged.1] at log
      cases log
  | inr logged =>
      obtain ⟨handle, there, made⟩ := logged
      rw [logFile?, there] at log
      cases log
      exact ⟨_, there, rfl, made.empty regular, made.start, rfl⟩

end Options

end WordWalk
