import Mathlib.Data.Set.Insert
import WordWalk.Files

/-! # Laws of files

Whoever runs programs on files can say which file a path leads to and what it holds. A file
is the same by whatever path, link or opened file it is found. What the operations on files do to
this view is stated here as laws, as far as programs that use files rely on it: a file that is
opened is emptied and no other is touched, what is written is written where the last piece ended, up to a
failure, and nothing but want of room makes the fate of one file depend on another. How much room there
is, who may open what and which paths there are is left open.
-/

namespace WordWalk

/-- A view of the files of a system. -/
class FileView (σ : Type) [Files (StateM σ)] where
  /-- Files, directories and devices, apart from the paths that lead there. -/
  File : Type
  kind : File → EntryKind
  /-- What a path leads to. -/
  leads : σ → String → Option File
  /-- The octets of a file. Those of a device mean nothing. -/
  contents : σ → File → ByteArray
  /-- Why a file at a path cannot be read. -/
  unreadable? : σ → String → Option OsFault
  /-- A path can be opened for writing if there is room. -/
  writable : σ → String → Prop
  /-- The file that was opened. -/
  file : Files.Handle (StateM σ) → File
  /-- Where the next piece goes. -/
  position : Files.Handle (StateM σ) → Nat
  /-- The file, most often a device, that stands behind standard output. -/
  standardOutput : File
  /-- What has been put on a stream, or written to the file behind it. -/
  displayed : σ → Stream → ByteArray

namespace FileView

variable {σ : Type} [Files (StateM σ)] [FileView σ]

/-- Two states of a system that are the same but for what some files hold. -/
structure Alike (hidden : Set (File σ)) (s e : σ) : Prop where
  leads : ∀ path, leads e path = leads s path
  contents : ∀ f ∉ hidden, contents e f = contents s f
  unreadable : ∀ path, unreadable? e path = unreadable? s path
  writable : ∀ path, writable e path ↔ writable s path
  output : standardOutput ∉ hidden → displayed e .output = displayed s .output

/-- No other files than these have been made or changed. -/
structure Differs (changed : Set (File σ)) (s e : σ) : Prop where
  leads : ∀ path, leads e path = leads s path ∨ leads s path = none ∧ ∃ f ∈ changed, leads e path = some f
  contents : ∀ f ∉ changed, contents e f = contents s f
  unreadable : ∀ path, FileView.leads s path ≠ none → unreadable? e path = unreadable? s path
  writable : ∀ path, FileView.leads e path = FileView.leads s path → (writable e path ↔ writable s path)
  output : standardOutput ∉ changed → displayed e .output = displayed s .output

/-- A file that did not exist. -/
structure Fresh (s : σ) (f : File σ) : Prop where
  file : kind f = .file
  notShown : f ≠ standardOutput
  unknown : ∀ path, leads s path ≠ some f

/-- What is read of a file at a path. -/
def reading (s : σ) (path : String) (f : File σ) : Except OsFault String :=
  match unreadable? s path with
  | some why => .error why
  | none => (String.fromUTF8? (contents s f)).elim (.error .notText) .ok

/-- A path has been opened for writing. -/
structure Opened (s : σ) (path : String) (handle : Files.Handle (StateM σ)) (e : σ) : Prop where
  permitted : writable s path
  differs : Differs {file handle} s e
  leads : leads e path = some (file handle)
  place : FileView.leads s path = some (file handle) ∨ FileView.leads s path = none ∧ Fresh s (file handle)
  start : position handle = 0
  empty : kind (file handle) = .file → contents e (file handle) = ∅
  output : displayed e .output = displayed s .output

/-- A path cannot be opened for writing. Only for a new file can there be no room. -/
def Refused (s : σ) (path : String) (why : OsFault) : Prop :=
  ¬ writable s path ∨ leads s path = none ∧ why = .noSpace

/-- A piece has been written to an opened file, up to some octet. -/
structure Wrote (s : σ) (handle : Files.Handle (StateM σ)) (piece : ByteArray)
    (done : Written (Files.Handle (StateM σ))) (e : σ) : Prop where
  alike : Alike {file handle} s e
  file : file done.handle = file handle
  position : position done.handle = position handle + done.taken
  part : done.taken ≤ piece.size
  whole : done.fault? = none → done.taken = piece.size
  contents : kind (FileView.file handle) = .file →
    contents e (FileView.file handle) =
      overlay (FileView.position handle) (piece.extract 0 done.taken) (contents s (FileView.file handle))
  room : kind (FileView.file handle) = .file → ∀ why, done.fault? = some why → why = .noSpace
  output : FileView.file handle = standardOutput →
    displayed e .output = displayed s .output ++ piece.extract 0 done.taken

end FileView

open FileView

/-- What the operations on files do to the view of them. Standard error is a stream behind which there is no
    file that programs use. -/
class FileLaws (σ : Type) [Files (StateM σ)] [FileView σ] : Prop where
  kind?_run : ∀ (s : σ) (path : String), (Files.kind? path : StateM σ _) s = ((leads s path).map kind, s)
  readText_unchanged : ∀ (s : σ) (path : String), ((Files.readText path : StateM σ _) s).2 = s
  readText_file : ∀ (s : σ) (path : String) (f : File σ), leads s path = some f → kind f = .file →
    ((Files.readText path : StateM σ _) s).1 = reading s path f
  create_run : ∀ (s : σ) (path : String),
    (∃ why, (Files.create path : StateM σ _) s = (.error why, s) ∧ Refused s path why) ∨
      ∃ handle e, (Files.create path : StateM σ _) s = (.ok handle, e) ∧ Opened s path handle e
  write_run : ∀ (s : σ) (handle : Files.Handle (StateM σ)) (piece : ByteArray),
    Wrote s handle piece ((Files.write handle piece : StateM σ _) s).1
      ((Files.write handle piece : StateM σ _) s).2
  /-- What a device takes does not depend on anything else. -/
  write_device : ∀ (s e : σ) (handle other : Files.Handle (StateM σ)) (piece : ByteArray),
    file handle = file other → kind (file handle) = .special →
      ((Files.write handle piece : StateM σ _) s).1.taken = ((Files.write other piece : StateM σ _) e).1.taken ∧
        ((Files.write handle piece : StateM σ _) s).1.fault? = ((Files.write other piece : StateM σ _) e).1.fault?
  print_output : ∀ (s : σ) (text : String),
    Alike {standardOutput} s ((Files.print .output text : StateM σ _) s).2 ∧
      displayed ((Files.print .output text : StateM σ _) s).2 .output = displayed s .output ++ text.toUTF8
  print_error : ∀ (s : σ) (text : String),
    Alike ∅ s ((Files.print .error text : StateM σ _) s).2 ∧
      displayed ((Files.print .error text : StateM σ _) s).2 .error = displayed s .error ++ text.toUTF8

end WordWalk
