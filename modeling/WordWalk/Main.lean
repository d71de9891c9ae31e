import WordWalk.Help
import WordWalk.Run

/-! # The command line

Runs on the files of the system. A run that fails ends with code 1, one that is refused
for its arguments with code 2.
-/

namespace WordWalk

/-- The refusal that an error of the system stands for. -/
def OsFault.ofError : IO.Error → OsFault
  | .noFileOrDirectory _ 2 _ => .notFound
  | .permissionDenied _ 13 _ => .denied
  | .inappropriateType _ 20 _ => .notDirectory
  | .inappropriateType _ 21 _ => .isDirectory
  | .resourceExhausted _ 28 _ => .noSpace
  | .invalidArgument _ 36 _ => .nameTooLong
  | .invalidArgument _ 40 _ => .tooManyLinks
  | e => .other (toString e)

/-- Makes failure a result. -/
def attempt {α : Type} (action : IO α) : IO (Except OsFault α) := do
  try return .ok (← action) catch e => return .error (.ofError e)

instance : Files IO where
  Handle := IO.FS.Handle
  kind? path := do
    let entry : IO.FS.DirEntry := { root := path, fileName := "" }
    match ← attempt do return (← entry.root.metadata).type with
    | .ok .file => return some .file
    | .ok _ => return some .special
    | .error _ => return none
  readText path := do
    match ← attempt do (← IO.FS.Handle.mk path .read).readBinToEnd with
    | .error why => return .error why
    | .ok bytes =>
        match String.fromUTF8? bytes with
        | some text => return .ok text
        | none => return .error .notText
  create path := attempt (IO.FS.Handle.mk path .write)
  write handle piece := do
    match ← attempt do handle.write piece; handle.flush with
    | .ok () => return ⟨handle, piece.size, none⟩
    | .error why => return ⟨handle, 0, some why⟩
  print
    | .output, text => do
        IO.print text
        (← IO.getStdout).flush
    | .error, text => IO.eprint text

end WordWalk

def main (arguments : List String) : IO UInt32 := do
  match WordWalk.CommandLine.parse arguments with
  | .ok o => return WordWalk.exitCode (← WordWalk.perform o)
  | .error .help =>
      IO.print WordWalk.CommandLine.helpText
      return 0
  | .error .version =>
      IO.print WordWalk.CommandLine.versionText
      return 0
  | .error (.refused why) =>
      IO.eprint why.report
      return 2
