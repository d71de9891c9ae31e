import WordWalk.Files

/-! # Buffered writers

A writer lets what it is given wait until there is enough of it to be written, so the file
lags behind. A piece is always written as a whole if it can be: the file ends where a piece ends. What
could not be written goes on waiting.
-/

namespace WordWalk

/-- A file opened for writing, and the octets that wait to be written there. -/
structure Writer (m : Type → Type) [Files m] where
  handle : Files.Handle m
  waiting : ByteArray := ∅

namespace Writer

/-- The most octets that wait. A piece that is no smaller never does. -/
def capacity : Nat := 8192

variable {m : Type → Type} [Monad m] [Files m]

/-- Whether a piece can wait beside what waits already. -/
def hasRoom (w : Writer m) (piece : ByteArray) : Bool :=
  piece.size < capacity && w.waiting.size + piece.size ≤ capacity

def wait (w : Writer m) (piece : ByteArray) : Writer m := { w with waiting := w.waiting ++ piece }

def flush (w : Writer m) : m (Writer m × Option OsFault) := do
  if w.waiting.size = 0 then return (w, none)
  let done ← Files.write w.handle w.waiting
  return ({ handle := done.handle, waiting := w.waiting.extract done.taken w.waiting.size }, done.fault?)

/-- Takes a piece that has no room beside what waits, after that has been written. -/
def putAfter (w : Writer m) (piece : ByteArray) : m (Writer m × Option OsFault) := do
  if w.hasRoom piece then return (w.wait piece, none)
  let done ← Files.write w.handle piece
  return ({ w with handle := done.handle }, done.fault?)

/-- Takes a piece. One that fails is lost. -/
def put (w : Writer m) (piece : ByteArray) : m (Writer m × Option OsFault) := do
  if w.hasRoom piece then return (w.wait piece, none)
  match ← w.flush with
  | (w, some why) => return (w, some why)
  | (w, none) => w.putAfter piece

/-- Takes texts up to the first failure. -/
def putAll (w : Writer m) : List String → m (Writer m × Option OsFault)
  | [] => return (w, none)
  | text :: rest => do
      match ← w.put text.toUTF8 with
      | (w, some why) => return (w, some why)
      | (w, none) => w.putAll rest

end Writer

end WordWalk
