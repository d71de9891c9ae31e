/-! # Files

What a program may ask of the system it runs on: what stands at a path, the text of a
file, a file to write to, and two streams for what it has to say. An opened file is written
piece after piece, each where the one before it ended, whatever else happened to the file in
between.
-/

namespace WordWalk

inductive OsFault where
  | notFound
  | denied
  | notDirectory
  | isDirectory
  | noSpace
  | nameTooLong
  | tooManyLinks
  /-- A path holds the character that ends paths. -/
  | nulInPath
  /-- The contents of a file are not UTF-8. -/
  | notText
  | other (text : String)
  deriving DecidableEq, Repr

def OsFault.text : OsFault → String
  | notFound => "No such file or directory (os error 2)"
  | denied => "Permission denied (os error 13)"
  | notDirectory => "Not a directory (os error 20)"
  | isDirectory => "Is a directory (os error 21)"
  | noSpace => "No space left on device (os error 28)"
  | nameTooLong => "File name too long (os error 36)"
  | tooManyLinks => "Too many levels of symbolic links (os error 40)"
  | nulInPath => "file name contained an unexpected NUL byte"
  | notText => "stream did not contain valid UTF-8"
  | other text => text

inductive EntryKind where
  | file
  /-- A directory or a device. -/
  | special
  deriving DecidableEq, Repr

/-- The streams that a program has from its beginning. -/
inductive Stream where
  | output
  | error
  deriving DecidableEq, Repr

/-- Octets with others from a position on. What lies between the end and the position is
    filled with zeros. -/
def overlay (position : Nat) (new old : ByteArray) : ByteArray :=
  if new.size = 0 then old
  else
    let gap : ByteArray := ⟨Array.replicate (position - old.size) 0⟩
    old.extract 0 position ++ gap ++ new ++ old.extract (position + new.size) old.size

/-- What became of a piece that was to be written. -/
structure Written (Handle : Type) where
  /-- The opened file, to go on with. -/
  handle : Handle
  /-- How many octets were written. -/
  taken : Nat
  /-- Why not all of them were. -/
  fault? : Option OsFault

/-- A monad in which files can be used. -/
class Files (m : Type → Type) where
  /-- A file opened for writing, and where the next piece goes. -/
  Handle : Type
  /-- What stands at the path, if anything. -/
  kind? : String → m (Option EntryKind)
  /-- The text of the file at the path. -/
  readText : String → m (Except OsFault String)
  /-- Opens the file at the path for writing, after creating or emptying it. -/
  create : String → m (Except OsFault Handle)
  /-- Writes the next piece of an opened file, or as much of it as can be written. -/
  write : Handle → ByteArray → m (Written Handle)
  /-- Puts a text on a stream. -/
  print : Stream → String → m Unit

end WordWalk
