import Std.Data.ExtTreeMap
import WordWalk.Run
import WordWalk.Text.Octets

/-! # Disks

A file system: entries under names, in directories below one root, links that stand for other places, and as
much room as there is. One directory is where paths start that are not absolute. Paths are
resolved name by name: an empty name and a dot stay where they are, two dots go up, a link is
followed, and only a directory can be gone into. Names and paths have a greatest size.
-/

namespace WordWalk

inductive Entry where
  | file (readable writable : Bool)
  | directory
  /-- Swallows everything. -/
  | nullDevice
  /-- Has no room for anything. -/
  | fullDevice
  | stream (which : Stream)
  deriving DecidableEq, Repr

/-- The names that lead to an entry from the root, outermost first. -/
abbrev Place := List String

/-- A file, directory or device. A device is the same at all places. -/
inductive Node where
  | file (place : Place)
  | directory (place : Place)
  | nullDevice
  | fullDevice
  | stream (which : Stream)
  deriving DecidableEq, Repr

def Node.kind : Node → EntryKind
  | file _ => .file
  | _ => .special

def Entry.node (place : Place) : Entry → Node
  | file _ _ => .file place
  | directory => .directory place
  | nullDevice => .nullDevice
  | fullDevice => .fullDevice
  | stream which => .stream which

structure Disk where
  /-- Where paths start that are not absolute. -/
  home : Place
  entries : Std.ExtTreeMap Place Entry
  /-- Where links lead. -/
  links : Std.ExtTreeMap Place Place
  /-- What files hold. -/
  octets : Std.ExtTreeMap Place ByteArray
  /-- How many more octets files can hold, if there is a limit. -/
  room : Option Nat
  /-- What has been put on the streams. -/
  displayed : Stream → ByteArray

namespace Disk

def empty : Disk where
  home := ["home", "user"]
  entries := ∅
  links := ∅
  octets := ∅
  room := none
  displayed _ := ∅

instance : EmptyCollection Disk := ⟨empty⟩

instance : Inhabited Disk := ⟨empty⟩

def device? : Place → Option Entry
  | ["dev"] => some .directory
  | ["dev", "null"] => some .nullDevice
  | ["dev", "full"] => some .fullDevice
  | ["dev", "stdout"] => some (.stream .output)
  | ["dev", "stderr"] => some (.stream .error)
  | _ => none

/-- What is always there: the devices, and the directories that the first one is in. -/
def fixed? (d : Disk) (place : Place) : Option Entry :=
  if place.isPrefixOf d.home then some .directory else device? place

/-- The entry at a place that is not a link. -/
def entryAt (d : Disk) (place : Place) : Option Entry := (d.fixed? place).or d.entries[place]?

/-- The names in a path, with an empty one before, between and after slashes. -/
def pathNames (path : String) : List String := go [] path.toList
where
  /-- Splits the rest of a path, given the characters of the current name, latest first. -/
  go (name : List Char) : List Char → List String
    | [] => [String.ofList name.reverse]
    | '/' :: rest => String.ofList name.reverse :: go [] rest
    | c :: rest => go (c :: name) rest

def maxNameSize : Nat := 255

def maxPathSize : Nat := 4095

def maxLinks : Nat := 40

def follow (d : Disk) : Nat → Place → Except OsFault Place
  | 0, _ => .error .tooManyLinks
  | n + 1, place =>
      match d.links[place]? with
      | some target => d.follow n target
      | none => .ok place

/-- Goes from one directory to another. -/
def enter (d : Disk) (here : Place) : List String → Except OsFault Place
  | [] => .ok here
  | name :: rest =>
      if name = "" ∨ name = "." then d.enter here rest
      else if name = ".." then d.enter here.dropLast rest
      else if maxNameSize < name.utf8ByteSize then .error .nameTooLong
      else do
        let inside ← d.follow maxLinks (here ++ [name])
        match d.entryAt inside with
        | some .directory => d.enter inside rest
        | some _ => .error .notDirectory
        | none => .error .notFound

/-- Where a path leads. Its last name may stand for nothing yet. -/
structure Target where
  place : Place
  /-- The path insists on a directory by ending in a slash. -/
  slashed : Bool
  deriving DecidableEq, Repr

def Target.isTooLong (t : Target) : Bool := t.place.getLast?.any (maxNameSize < ·.utf8ByteSize)

/-- Follows a path up to its last name. -/
def locate (d : Disk) (path : String) : Except OsFault Target :=
  if path.toList.contains '\x00' then .error .nulInPath
  else if path = "" then .error .notFound
  else if maxPathSize < path.utf8ByteSize then .error .nameTooLong
  else do
    let names := pathNames path
    let start : Place := if path.startsWith "/" then [] else d.home
    let slashes := (names.reverse.takeWhile (· == "")).length
    let kept := names.take (names.length - slashes)
    match kept.getLast? with
    | none => return ⟨start, true⟩
    | some last =>
        let parent ← d.enter start kept.dropLast
        if last = "." then return ⟨parent, true⟩
        else if last = ".." then return ⟨parent.dropLast, true⟩
        else return ⟨parent ++ [last], slashes != 0⟩

def resolve (d : Disk) (path : String) : Except OsFault Target := do
  let target ← d.locate path
  return { target with place := ← d.follow maxLinks target.place }

def lookup (d : Disk) (path : String) : Except OsFault (Place × Entry) := do
  let target ← d.resolve path
  if target.isTooLong then .error .nameTooLong
  else
    match d.entryAt target.place with
    | some .directory => return (target.place, .directory)
    | some entry => if target.slashed then .error .notDirectory else return (target.place, entry)
    | none => .error .notFound

def leads (d : Disk) (path : String) : Option Node :=
  (d.lookup path).toOption.map fun (place, entry) => entry.node place

def octetsAt (d : Disk) (place : Place) : ByteArray := d.octets.getD place ∅

def readText (d : Disk) (path : String) : Except OsFault String := do
  match ← d.lookup path with
  | (place, .file true _) => (String.fromUTF8? (d.octetsAt place)).elim (.error .notText) .ok
  | (_, .nullDevice) => return ""
  | (_, .directory) => .error .isDirectory
  | _ => .error .denied

/-- What is opened for writing at a place. -/
def openingAt (d : Disk) (place : Place) : Except OsFault Node :=
  match d.entryAt place with
  | some .directory => .error .isDirectory
  | some (.file _ false) => .error .denied
  | some entry => .ok (entry.node place)
  | none =>
      match d.entryAt place.dropLast with
      | some .directory => .ok (.file place)
      | some _ => .error .notDirectory
      | none => .error .notFound

/-- What is opened when a path is opened for writing. -/
def opening (d : Disk) (path : String) : Except OsFault Node := do
  if (← d.locate path).slashed then .error .isDirectory
  else
    let target ← d.resolve path
    if target.isTooLong then .error .nameTooLong else d.openingAt target.place

/-- Files hold these octets, and there is more or less room. -/
def store (d : Disk) (place : Place) (octets : ByteArray) : Disk :=
  { d with
    octets := d.octets.insert place octets
    room := d.room.map (· + (d.octetsAt place).size - octets.size) }

def opened (d : Disk) : Node → Disk
  | .file place =>
      match d.entryAt place with
      | none => { d.store place ∅ with entries := d.entries.insert place (.file true true) }
      | some _ => d.store place ∅
  | _ => d

def put (d : Disk) (which : Stream) (octets : ByteArray) : Disk :=
  { d with displayed := fun other => if other = which then d.displayed other ++ octets else d.displayed other }

/-- How much of a piece there is room for. -/
def fitting (d : Disk) (place : Place) (position size : Nat) : Nat :=
  match d.room with
  | none => size
  | some room => min size ((d.octetsAt place).size + room - position)

structure OpenFile where
  node : Node
  /-- Where the next piece goes. -/
  position : Nat
  deriving DecidableEq, Repr

def OpenFile.wrote (file : OpenFile) (taken : Nat) (fault? : Option OsFault) : Written OpenFile :=
  { handle := { file with position := file.position + taken }, taken, fault? }

def write (d : Disk) (file : OpenFile) (piece : ByteArray) : Written OpenFile × Disk :=
  match file.node with
  | .file place =>
      let room := d.fitting place file.position piece.size
      let old := d.octetsAt place
      if room < piece.size then
        (file.wrote room (some .noSpace), d.store place (overlay file.position (piece.extract 0 room) old))
      else (file.wrote piece.size none, d.store place (overlay file.position piece old))
  | .fullDevice => (file.wrote 0 (if piece.size = 0 then none else some .noSpace), d)
  | .stream which => (file.wrote piece.size none, d.put which piece)
  | _ => (file.wrote piece.size none, d)

def addDirectories (d : Disk) (place : Place) : Disk :=
  { d with
    entries := (List.range place.length).foldl
      (fun entries n => entries.insertIfNew (place.take (n + 1)) .directory) d.entries }

/-- The place of a path that needs no resolving. -/
def placeOf (d : Disk) (path : String) : Place := d.home ++ (pathNames path).filter (· != "")

def addDirectory (d : Disk) (path : String) : Disk := d.addDirectories (d.placeOf path)

def addFile (d : Disk) (path : String) (octets : ByteArray) : Disk :=
  let place := d.placeOf path
  let d := d.addDirectories place.dropLast
  { d with
    entries := d.entries.insert place (.file true true)
    octets := d.octets.insert place octets }

def files (d : Disk) : List (String × ByteArray) :=
  d.entries.toList.filterMap fun (place, entry) =>
    match entry with
    | .file _ _ =>
        if d.home.isPrefixOf place then
          some ("/".intercalate (place.drop d.home.length), d.octetsAt place)
        else none
    | _ => none

/-- The files that are new or have other contents than on an earlier disk, and their texts. -/
def changesSince (d before : Disk) : List (String × String) :=
  (d.files.filter fun file => !before.files.contains file).map fun (path, octets) =>
    (path, textOfOctets octets)

end Disk

/-- Programs that use files run on a disk. -/
instance : Files (StateM Disk) where
  Handle := Disk.OpenFile
  kind? path d := ((d.leads path).map Node.kind, d)
  readText path d := (d.readText path, d)
  create path d :=
    match d.opening path with
    | .error why => (.error why, d)
    | .ok node => (.ok ⟨node, 0⟩, d.opened node)
  write file piece d := d.write file piece
  print which text d := ((), d.put which text.toUTF8)

structure Outcome where
  succeeded : Bool
  stdout : String
  stderr : String
  deriving DecidableEq, Repr

def run (o : Options) : StateM Disk Outcome := do
  let succeeded ← perform o
  let d ← get
  return ⟨succeeded, textOfOctets (d.displayed .output), textOfOctets (d.displayed .error)⟩

end WordWalk
