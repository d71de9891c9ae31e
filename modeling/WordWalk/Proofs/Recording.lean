import WordWalk.Log
import WordWalk.Proofs.FileFrame

/-! # What a log does

Whatever a log is told, it does one of three things, again and again: it lets a piece wait, it
writes what waits, or it writes a piece when nothing waits. A condition that is kept by all of them, and by
what is said on standard error, is kept by all work that only tells the log lines or says something.
-/

namespace WordWalk

open FileView

variable {σ α β : Type} [Files (StateM σ)]

/-- What may hold of the log, if there is one, and the system. -/
abbrev Condition (σ : Type) [Files (StateM σ)] := Option (Writer (StateM σ)) → σ → Prop

/-- If the first condition holds before the work, the second one holds of its result after it. -/
def Ensures (P : Condition σ) (x : Recorded (StateM σ) α) (Q : α → Condition σ) : Prop :=
  ∀ log s, P log s → Q (x log s).1.1 (x log s).1.2 (x log s).2

section Work

variable {P P' : Condition σ} {x : Recorded (StateM σ) α} {f : α → Recorded (StateM σ) β}
  {Q Q' : α → Condition σ} {R : β → Condition σ}

theorem Ensures.pure {a : α} (h : ∀ log s, P log s → Q a log s) : Ensures P (pure a) Q := h

theorem Ensures.bind (first : Ensures P x Q) (second : ∀ a, Ensures (Q a) (f a) R) : Ensures P (x >>= f) R :=
  fun log s holds => second _ _ _ (first log s holds)

theorem Ensures.mono (h : Ensures P x Q) (le : ∀ a log s, Q a log s → Q' a log s) : Ensures P x Q' :=
  fun log s holds => le _ _ _ (h log s holds)

theorem Ensures.and (h : Ensures P x Q) (h' : Ensures P' x Q') :
    Ensures (fun log s => P log s ∧ P' log s) x fun a log s => Q a log s ∧ Q' a log s :=
  fun log s holds => ⟨h log s holds.1, h' log s holds.2⟩

end Work

namespace Writer

/-- The writer after what waits has been written up to some octet. -/
def after (w : Writer (StateM σ)) (done : Written (Files.Handle (StateM σ))) : Writer (StateM σ) where
  handle := done.handle
  waiting := w.waiting.extract done.taken w.waiting.size

variable (w : Writer (StateM σ)) (s : σ)

theorem flush_nothing (nothing : w.waiting.size = 0) : (w.flush : StateM σ _) s = ((w, none), s) := by
  rw [flush, if_pos nothing]
  rfl

theorem flush_run (more : w.waiting.size ≠ 0) :
    (w.flush : StateM σ _) s =
      let done := (Files.write w.handle w.waiting : StateM σ _) s
      ((w.after done.1, done.1.fault?), done.2) := by
  rw [flush, if_neg more]
  rfl

variable {w} {piece : ByteArray}

theorem putAfter_run (full : w.hasRoom piece = false) :
    (w.putAfter piece : StateM σ _) s =
      let done := (Files.write w.handle piece : StateM σ _) s
      (({ w with handle := done.1.handle }, done.1.fault?), done.2) := by
  rw [putAfter, full]
  rfl

theorem put_room (room : w.hasRoom piece = true) : (w.put piece : StateM σ _) s = ((w.wait piece, none), s) := by
  rw [put, room]
  rfl

theorem putAfter_room (room : w.hasRoom piece = true) :
    (w.putAfter piece : StateM σ _) s = ((w.wait piece, none), s) := by
  rw [putAfter, room]
  rfl

variable {s} {w' : Writer (StateM σ)} {e : σ}

theorem put_fault {why : OsFault} (full : w.hasRoom piece = false)
    (flushed : (w.flush : StateM σ _) s = ((w', some why), e)) :
    (w.put piece : StateM σ _) s = ((w', some why), e) := by
  rw [put, full]
  simp only [Bool.false_eq_true, if_false, bind, StateT.bind, flushed]
  rfl

theorem put_after (full : w.hasRoom piece = false) (flushed : (w.flush : StateM σ _) s = ((w', none), e)) :
    (w.put piece : StateM σ _) s = (w'.putAfter piece : StateM σ _) e := by
  rw [put, full]
  simp only [Bool.false_eq_true, if_false, bind, StateT.bind, flushed]

end Writer

variable [FileView σ] {P P' : Condition σ}

/-- The condition is kept by whatever a log does. -/
structure Steady (P : Condition σ) : Prop where
  wait : ∀ {w s} piece, P (some w) s → P (some (w.wait piece)) s
  flush : ∀ {w s e done}, P (some w) s → Wrote s w.handle w.waiting done e → P (some (w.after done)) e
  through : ∀ {w s e done} piece, P (some w) s → w.waiting.size = 0 → Wrote s w.handle piece done e →
    P (some { w with handle := done.handle }) e
  say : ∀ {log s e}, P log s → Alike ∅ s e → P log e

namespace Steady

theorem and (h : Steady P) (h' : Steady P') : Steady fun log s => P log s ∧ P' log s where
  wait piece holds := ⟨h.wait piece holds.1, h'.wait piece holds.2⟩
  flush holds wrote := ⟨h.flush holds.1 wrote, h'.flush holds.2 wrote⟩
  through piece holds nothing wrote :=
    ⟨h.through piece holds.1 nothing wrote, h'.through piece holds.2 nothing wrote⟩
  say holds alike := ⟨h.say holds.1 alike, h'.say holds.2 alike⟩

theorem const {p : Prop} : Steady fun (_ : Option (Writer (StateM σ))) (_ : σ) => p where
  wait _ := id
  flush holds _ := holds
  through _ holds _ _ := holds
  say holds _ := holds

theorem any {ι : Sort*} {P : ι → Condition σ} (h : ∀ i, Steady (P i)) : Steady fun log s => ∃ i, P i log s where
  wait piece holds := holds.imp fun i holds => (h i).wait piece holds
  flush holds wrote := holds.imp fun i holds => (h i).flush holds wrote
  through piece holds nothing wrote := holds.imp fun i holds => (h i).through piece holds nothing wrote
  say holds alike := holds.imp fun i holds => (h i).say holds alike

variable [FileLaws σ] (steady : Steady P) {w : Writer (StateM σ)} {s : σ}
include steady

theorem flushed (holds : P (some w) s) :
    P (some ((w.flush : StateM σ _) s).1.1) ((w.flush : StateM σ _) s).2 ∧
      (((w.flush : StateM σ _) s).1.2 = none → ((w.flush : StateM σ _) s).1.1.waiting.size = 0) := by
  by_cases nothing : w.waiting.size = 0
  · rw [w.flush_nothing s nothing]
    exact ⟨holds, fun _ => nothing⟩
  · rw [w.flush_run s nothing]
    have wrote := FileLaws.write_run s w.handle w.waiting
    refine ⟨steady.flush holds wrote, fun whole => ?_⟩
    simp only [Writer.after, wrote.whole whole, ByteArray.size_extract]
    omega

theorem putAfter (piece : ByteArray) (holds : P (some w) s) (nothing : w.waiting.size = 0) :
    P (some ((w.putAfter piece : StateM σ _) s).1.1) ((w.putAfter piece : StateM σ _) s).2 := by
  cases room : w.hasRoom piece with
  | true =>
      rw [Writer.putAfter_room s room]
      exact steady.wait piece holds
  | false =>
      rw [Writer.putAfter_run s room]
      exact steady.through piece holds nothing (FileLaws.write_run s w.handle piece)

theorem put (piece : ByteArray) (holds : P (some w) s) :
    P (some ((w.put piece : StateM σ _) s).1.1) ((w.put piece : StateM σ _) s).2 := by
  cases room : w.hasRoom piece with
  | true =>
      rw [Writer.put_room s room]
      exact steady.wait piece holds
  | false =>
      have between := steady.flushed holds
      rcases flushed : (w.flush : StateM σ _) s with ⟨⟨w', _ | why⟩, e⟩
      · rw [flushed] at between
        rw [Writer.put_after room flushed]
        exact steady.putAfter piece between.1 (between.2 rfl)
      · rw [flushed] at between
        rw [Writer.put_fault room flushed]
        exact between.1

theorem putAll (texts : List String) (holds : P (some w) s) :
    P (some ((w.putAll texts : StateM σ _) s).1.1) ((w.putAll texts : StateM σ _) s).2 := by
  induction texts generalizing w s with
  | nil => exact holds
  | cons text rest ih =>
      have first := steady.put text.toUTF8 holds
      rw [Writer.putAll]
      simp only [bind, StateT.bind]
      rcases run : (w.put text.toUTF8 : StateM σ _) s with ⟨⟨w', _ | why⟩, e⟩
      · rw [run] at first
        exact ih first
      · rw [run] at first
        exact first

theorem said (text : String) : Ensures P (WordWalk.say text) fun _ => P :=
  fun _ s holds => steady.say holds (FileLaws.print_error s text).1

theorem tell (line : LogLine) : Ensures P (tell line) fun _ => P := by
  intro log s holds
  cases log with
  | none => exact holds
  | some w =>
      have told := steady.putAll line.parts holds
      unfold WordWalk.tell
      simp only [bind, StateT.bind]
      rcases run : (w.putAll line.parts : StateM σ _) s with ⟨⟨w', _ | why⟩, e⟩
      · rw [run] at told
        exact told
      · rw [run] at told
        exact steady.say told (FileLaws.print_error e line.fallback).1

theorem tellAll (lines : List LogLine) : Ensures P (tellAll lines) fun _ => P := by
  induction lines with
  | nil => exact .pure fun _ _ => id
  | cons line rest ih => exact (steady.tell line).bind fun _ => ih

theorem closeLog (path : String) : Ensures P (closeLog path) fun _ => P := by
  intro log s holds
  cases log with
  | none => exact holds
  | some w =>
      have closed := (steady.flushed holds).1
      unfold WordWalk.closeLog
      simp only [bind, StateT.bind]
      rcases run : (w.flush : StateM σ _) s with ⟨⟨w', _ | why⟩, e⟩
      · rw [run] at closed
        exact closed
      · rw [run] at closed
        exact steady.say closed (FileLaws.print_error e _).1

end Steady

end WordWalk
