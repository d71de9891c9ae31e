import WordWalk.Writer

/-! # Logs

What a program says while it works goes to a log, if it has one, and to standard error. A log
that fails is complained about on standard error and changes nothing else.
-/

namespace WordWalk

/-- A line of a log, in the parts in which it is written. -/
inductive LogLine where
  | plain (parts : List String)
  /-- A line that tells of a fault, and says so at its beginning. -/
  | fault (parts : List String)
  deriving DecidableEq, Repr

namespace LogLine

/-- Everything the log is told for the sake of the line. -/
def parts : LogLine → List String
  | plain parts => parts ++ ["\n"]
  | fault parts => "ERROR: " :: parts ++ ["\n"]

/-- What is said elsewhere when the log refuses the line. -/
def fallback : LogLine → String
  | plain parts => s!"Fallback (log write failed): {String.join parts}\n"
  | fault parts => s!"Fallback (log write failed) ERROR: {String.join parts}\n"

end LogLine

/-- Work that tells a log, if there is one. -/
abbrev Recorded (m : Type → Type) [Files m] := StateT (Option (Writer m)) m

variable {m : Type → Type} [Monad m] [Files m]

/-- Opens the log at a path. If that fails, there is none. -/
def openLog (path : String) : m (Option (Writer m)) := do
  match ← (Files.create path : m _) with
  | .ok handle => return some { handle }
  | .error why =>
      Files.print .error (s!"Warning: Failed to initialize verbose logger ({path}): {why.text}. " ++
        "Verbose file logging will be unavailable.\n")
      return none

def say (text : String) : Recorded m Unit := fun log => do
  Files.print .error text
  return ((), log)

/-- Tells the log a line, if there is a log. -/
def tell (line : LogLine) : Recorded m Unit := fun log => do
  match log with
  | none => return ((), none)
  | some w =>
      match ← w.putAll line.parts with
      | (w, none) => return ((), some w)
      | (w, some _) =>
          Files.print .error line.fallback
          return ((), some w)

def tellAll : List LogLine → Recorded m Unit
  | [] => return
  | line :: rest => do
      tell line
      tellAll rest

/-- Writes what the log at a path still holds back. -/
def closeLog (path : String) : Recorded m Unit := fun log => do
  match log with
  | none => return ((), none)
  | some w =>
      match ← w.flush with
      | (w, none) => return ((), some w)
      | (w, some why) =>
          Files.print .error s!"[WARNING] Failed to perform final flush of {path}: {why.text}\n"
          return ((), some w)

end WordWalk
