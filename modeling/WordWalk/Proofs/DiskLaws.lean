import WordWalk.Disk
import WordWalk.Proofs.FileFrame
import WordWalk.Proofs.Outcome

/-! # Disks keep the laws of files

A file on a disk is known by its place. Where a path leads depends on the links, on the directories and on
what is there at one place, so a new file is seen by paths that lead to its place, and by no others.
-/

namespace WordWalk

open FileView

namespace Disk

def contents (d : Disk) : Node → ByteArray
  | .file place => d.octetsAt place
  | _ => ∅

def unreadable? (d : Disk) (path : String) : Option OsFault :=
  match d.lookup path with
  | .ok (_, .file false _) => some .denied
  | _ => none

end Disk

instance : FileView Disk where
  File := Node
  kind := Node.kind
  leads := Disk.leads
  contents := Disk.contents
  unreadable? := Disk.unreadable?
  writable d path := ∃ node, d.opening path = .ok node
  file := Disk.OpenFile.node
  position := Disk.OpenFile.position
  standardOutput := Node.stream .output
  displayed := Disk.displayed

instance : DecidableEq (File Disk) := inferInstanceAs (DecidableEq Node)

namespace Disk

variable {d e : Disk} {changed : Set Node} {here place : Place} {path : String} {node : Node} {t : Target}

/-- The same entries, and some new files. -/
structure Grows (changed : Set Node) (d e : Disk) : Prop where
  home : e.home = d.home
  links : e.links = d.links
  entries : ∀ q, e.entryAt q = d.entryAt q ∨
    d.entryAt q = none ∧ Node.file q ∈ changed ∧ e.entryAt q = some (.file true true)

namespace Grows

variable (h : Grows changed d e)
include h

theorem follow (n : Nat) (place : Place) : e.follow n place = d.follow n place := by
  induction n generalizing place with
  | zero => rfl
  | succ n ih =>
      rw [Disk.follow, Disk.follow, h.links]
      cases d.links[place]? with
      | none => rfl
      | some target => exact ih target

theorem directory (q : Place) : e.entryAt q = some .directory ↔ d.entryAt q = some .directory := by
  cases h.entries q with
  | inl same => rw [same]
  | inr new =>
      obtain ⟨nothing, -, file⟩ := new
      simp [nothing, file]

theorem enter (names : List String) :
    e.enter here names = .ok place ↔ d.enter here names = .ok place := by
  induction names generalizing here with
  | nil => exact Iff.rfl
  | cons name rest ih =>
      rw [Disk.enter, Disk.enter]
      split
      · exact ih
      split
      · exact ih
      split
      · exact Iff.rfl
      rw [h.follow, bind_eq_ok, bind_eq_ok]
      refine exists_congr fun inside => and_congr_right fun _ => ?_
      cases h.entries inside with
      | inl same =>
          rw [same]
          split
          · exact ih
          · exact Iff.rfl
          · exact Iff.rfl
      | inr new =>
          obtain ⟨nothing, -, file⟩ := new
          rw [nothing, file]
          exact iff_of_false nofun nofun

theorem locate : e.locate path = .ok t ↔ d.locate path = .ok t := by
  unfold Disk.locate
  iterate 3
    split
    · exact Iff.rfl
  dsimp only
  rw [h.home]
  split
  · exact Iff.rfl
  · rw [bind_eq_ok, bind_eq_ok]
    simp only [h.enter]

theorem resolve : e.resolve path = .ok t ↔ d.resolve path = .ok t := by
  rw [Disk.resolve, Disk.resolve, bind_eq_ok, bind_eq_ok]
  simp only [h.locate, h.follow]

end Grows

theorem lookup_eq_ok {entry : Entry} :
    d.lookup path = .ok (place, entry) ↔
      ∃ t, d.resolve path = .ok t ∧ t.isTooLong = false ∧ t.place = place ∧ d.entryAt place = some entry ∧
        (entry ≠ .directory → t.slashed = false) := by
  unfold lookup
  rw [bind_eq_ok]
  refine exists_congr fun t => and_congr_right fun _ => ?_
  cases t.isTooLong with
  | true => exact iff_of_false nofun fun short => nomatch short.1
  | false =>
      simp only [Bool.false_eq_true, if_false, true_and]
      constructor
      · intro found
        split at found
        · next there =>
          cases found
          exact ⟨rfl, there, fun other => absurd rfl other⟩
        · next there =>
          split at found
          · cases found
          · next plain =>
            cases found
            exact ⟨rfl, there, fun _ => by simpa using plain⟩
        · cases found
      · rintro ⟨rfl, there, plain⟩
        rw [there]
        cases entry with
        | directory => rfl
        | file | nullDevice | fullDevice | stream => rw [plain nofun]; rfl

theorem resolve_eq_ok :
    d.resolve path = .ok t ↔
      ∃ u, d.locate path = .ok u ∧ d.follow maxLinks u.place = .ok t.place ∧ u.slashed = t.slashed := by
  rw [resolve, bind_eq_ok]
  refine exists_congr fun u => and_congr_right fun _ => ?_
  obtain ⟨place, slashed⟩ := t
  cases d.follow maxLinks u.place <;> simp [bind, Except.bind, pure, Except.pure]

theorem openingAt_eq_ok :
    d.openingAt place = .ok node ↔
      (∃ entry, d.entryAt place = some entry ∧ entry ≠ .directory ∧ (∀ r, entry ≠ .file r false) ∧
          entry.node place = node) ∨
        d.entryAt place = none ∧ d.entryAt place.dropLast = some .directory ∧ .file place = node := by
  unfold openingAt
  cases there : d.entryAt place with
  | none =>
      cases parent : d.entryAt place.dropLast with
      | none => simp
      | some entry => cases entry <;> simp
  | some entry => rcases entry with ⟨_, _ | _⟩ | _ | _ | _ | _ <;> simp

theorem opening_eq_ok :
    d.opening path = .ok node ↔
      ∃ t, d.resolve path = .ok t ∧ t.slashed = false ∧ t.isTooLong = false ∧ d.openingAt t.place = .ok node := by
  rw [opening, bind_eq_ok]
  constructor
  · rintro ⟨u, located, opened⟩
    cases slashed : u.slashed with
    | true => simp [slashed] at opened
    | false =>
        rw [slashed, if_neg Bool.false_ne_true, bind_eq_ok] at opened
        obtain ⟨t, resolved, opened⟩ := opened
        obtain ⟨u', again, -, same⟩ := resolve_eq_ok.mp resolved
        cases located.symm.trans again
        cases long : t.isTooLong with
        | true => simp [long] at opened
        | false => exact ⟨t, resolved, same.symm.trans slashed, long, by simpa [long] using opened⟩
  · rintro ⟨t, resolved, plain, short, opened⟩
    obtain ⟨u, located, -, same⟩ := resolve_eq_ok.mp resolved
    refine ⟨u, located, ?_⟩
    rw [same, plain, if_neg Bool.false_ne_true, bind_eq_ok]
    exact ⟨t, resolved, by simpa [short] using opened⟩

theorem leads_eq_some :
    d.leads path = some node ↔ ∃ place entry, d.lookup path = .ok (place, entry) ∧ entry.node place = node := by
  simp [leads, toOption_eq_some]

theorem leads_eq_none : d.leads path = none ↔ ∀ found, d.lookup path ≠ .ok found := by
  rw [leads, Option.map_eq_none_iff, Option.eq_none_iff_forall_ne_some]
  exact forall_congr' fun found => not_congr toOption_eq_some

theorem file_of_node {entry : Entry} {other : Place} (same : entry.node place = .file other) :
    place = other ∧ ∃ r w, entry = .file r w := by
  cases entry with
  | file r w => exact ⟨Node.file.inj same, r, w, rfl⟩
  | directory | nullDevice | fullDevice | stream => cases same

namespace Grows

variable (h : Grows changed d e)
include h

theorem lookup_known {found : Place × Entry} (there : d.lookup path = .ok found) : e.lookup path = .ok found := by
  obtain ⟨t, resolved, short, at_place, entry, plain⟩ := lookup_eq_ok.mp there
  refine lookup_eq_ok.mpr ⟨t, h.resolve.mpr resolved, short, at_place, ?_, plain⟩
  cases h.entries found.1 with
  | inl same => exact same.trans entry
  | inr new => cases entry.symm.trans new.1

theorem lookup_cases {found : Place × Entry} (there : e.lookup path = .ok found) :
    d.lookup path = .ok found ∨
      (∀ other, d.lookup path ≠ .ok other) ∧ .file found.1 ∈ changed ∧ found.2 = .file true true := by
  obtain ⟨t, resolved, short, at_place, entry, plain⟩ := lookup_eq_ok.mp there
  have resolved' := h.resolve.mp resolved
  cases h.entries found.1 with
  | inl same => exact .inl (lookup_eq_ok.mpr ⟨t, resolved', short, at_place, same.symm.trans entry, plain⟩)
  | inr new =>
      obtain ⟨nothing, mem, file⟩ := new
      refine .inr ⟨fun other before => ?_, mem, Option.some.inj (entry.symm.trans file)⟩
      obtain ⟨t', again, -, at_place', entry', -⟩ := lookup_eq_ok.mp before
      cases resolved'.symm.trans again
      rw [← at_place', at_place, nothing] at entry'
      cases entry'

theorem leads_cases (path : String) :
    e.leads path = d.leads path ∨ d.leads path = none ∧ ∃ f ∈ changed, e.leads path = some f := by
  cases there : e.leads path with
  | none =>
      refine .inl (leads_eq_none.mpr fun found before => ?_).symm
      exact leads_eq_none.mp there found (h.lookup_known before)
  | some node =>
      obtain ⟨place, entry, found, rfl⟩ := leads_eq_some.mp there
      cases h.lookup_cases found with
      | inl before => exact .inl (leads_eq_some.mpr ⟨place, entry, before, rfl⟩).symm
      | inr new =>
          obtain ⟨nothing, mem, file⟩ := new
          cases file
          exact .inr ⟨leads_eq_none.mpr nothing, _, mem, rfl⟩

theorem unreadable (some : d.leads path ≠ none) : e.unreadable? path = d.unreadable? path := by
  obtain ⟨node, there⟩ := Option.ne_none_iff_exists'.mp some
  obtain ⟨place, entry, found, -⟩ := leads_eq_some.mp there
  rw [unreadable?, unreadable?, found, h.lookup_known found]

theorem opening (same : e.leads path = d.leads path) : e.opening path = .ok node ↔ d.opening path = .ok node := by
  rw [opening_eq_ok, opening_eq_ok]
  refine exists_congr fun t => ?_
  rw [h.resolve, openingAt_eq_ok, openingAt_eq_ok]
  refine and_congr_right fun resolved => and_congr_right fun plain => and_congr_right fun short => ?_
  cases h.entries t.place with
  | inl still => rw [still, h.directory]
  | inr new =>
      obtain ⟨nothing, -, file⟩ := new
      -- The path would lead to the new file.
      have found := lookup_eq_ok.mpr ⟨t, h.resolve.mpr resolved, short, rfl, file, fun _ => plain⟩
      have there : e.leads path = some (.file t.place) := leads_eq_some.mpr ⟨_, _, found, rfl⟩
      obtain ⟨place, entry, before, -⟩ := leads_eq_some.mp (same.symm.trans there)
      obtain ⟨t', again, -, rfl, entry', -⟩ := lookup_eq_ok.mp before
      cases resolved.symm.trans again
      cases nothing.symm.trans entry'

theorem differs (contents : ∀ f ∉ changed, e.contents f = d.contents f)
    (output : Node.stream .output ∉ changed → e.displayed .output = d.displayed .output) :
    Differs changed d e where
  leads := h.leads_cases
  contents := contents
  unreadable _ := h.unreadable
  writable _ same := exists_congr fun _ => h.opening same
  output := output

end Grows

/-! ## What is done to files -/

theorem Grows.alike (h : Grows ∅ d e) {hidden : Set Node} (contents : ∀ f ∉ hidden, e.contents f = d.contents f)
    (output : Node.stream .output ∉ hidden → e.displayed .output = d.displayed .output) : Alike hidden d e := by
  have leads (path : String) : e.leads path = d.leads path := by
    cases h.leads_cases path with
    | inl same => exact same
    | inr new =>
        obtain ⟨-, f, none, -⟩ := new
        cases none
  have unreadable (path : String) : e.unreadable? path = d.unreadable? path := by
    by_cases nothing : d.leads path = none
    · have before := leads_eq_none.mp nothing
      have after := leads_eq_none.mp ((leads path).trans nothing)
      rw [unreadable?, unreadable?]
      split
      · next found => exact absurd found (after _)
      · split
        · next found => exact absurd found (before _)
        · rfl
    · exact h.unreadable nothing
  exact ⟨leads, contents, unreadable, fun path => exists_congr fun _ => h.opening (leads path), output⟩

theorem store_grows (d : Disk) (place : Place) (octets : ByteArray) : Grows changed d (d.store place octets) :=
  ⟨rfl, rfl, fun _ => .inl rfl⟩

theorem contents_store (d : Disk) (place : Place) (octets : ByteArray) (f : Node) :
    (d.store place octets).contents f = if f = .file place then octets else d.contents f := by
  cases f with
  | file other =>
      change (d.octets.insert place octets).getD other ∅ = _
      simp only [Std.ExtTreeMap.getD_insert, Std.compare_eq_iff_eq, Node.file.injEq, eq_comm (a := place)]
      rfl
  | directory | nullDevice | fullDevice | stream => rw [if_neg nofun]; rfl

theorem put_alike (d : Disk) (which : Stream) (octets : ByteArray) :
    Alike ({.stream which} : Set Node) d (d.put which octets) := by
  have grows : Grows ∅ d (d.put which octets) := ⟨rfl, rfl, fun _ => .inl rfl⟩
  refine grows.alike (fun _ _ => rfl) fun away => if_neg ?_
  rintro rfl
  exact away rfl

def made (d : Disk) (place : Place) : Disk :=
  { d.store place ∅ with entries := d.entries.insert place (.file true true) }

theorem made_entry (nothing : d.entryAt place = none) (q : Place) :
    (d.made place).entryAt q = if q = place then some (.file true true) else d.entryAt q := by
  have free : d.fixed? place = none := (Option.or_eq_none_iff.mp nothing).1
  change (d.fixed? q).or (d.entries.insert place _)[q]? = _
  rw [Std.ExtTreeMap.getElem?_insert]
  simp only [Std.compare_eq_iff_eq, eq_comm (a := place)]
  split
  · next here => rw [here, free, Option.none_or]
  · rfl

theorem made_grows (nothing : d.entryAt place = none) : Grows {.file place} d (d.made place) where
  home := rfl
  links := rfl
  entries q := by
    rw [made_entry nothing]
    split
    · next here => exact .inr ⟨here ▸ nothing, congrArg Node.file here, rfl⟩
    · exact .inl rfl

/-- What is opened is there, and is emptied, or is a new file. -/
theorem opened_cases (there : d.opening path = .ok node) :
    (node.kind = .special ∧ d.leads path = some node ∧ d.opened node = d) ∨
      ∃ place, node = .file place ∧
        (d.leads path = some node ∧ d.opened node = d.store place ∅ ∨
          d.leads path = none ∧ d.entryAt place = none ∧ d.opened node = d.made place ∧
            (d.made place).leads path = some node) := by
  obtain ⟨t, resolved, plain, short, opened_there⟩ := opening_eq_ok.mp there
  obtain ⟨entry, at_place, directory, permitted, rfl⟩ | ⟨nothing, -, rfl⟩ := openingAt_eq_ok.mp opened_there
  · have leads : d.leads path = some (entry.node t.place) :=
      leads_eq_some.mpr ⟨_, entry, lookup_eq_ok.mpr ⟨t, resolved, short, rfl, at_place, fun _ => plain⟩, rfl⟩
    cases entry with
    | file r w => exact .inr ⟨t.place, rfl, .inl ⟨leads, by simp only [opened, Entry.node, at_place]⟩⟩
    | directory => exact absurd rfl directory
    | nullDevice | fullDevice | stream => exact .inl ⟨rfl, leads, rfl⟩
  · have before : d.leads path = none := by
      refine leads_eq_none.mpr fun found known => ?_
      obtain ⟨t', again, -, at_place, entry, -⟩ := lookup_eq_ok.mp known
      cases resolved.symm.trans again
      rw [← at_place, nothing] at entry
      cases entry
    have file : (d.made t.place).entryAt t.place = some (.file true true) := by rw [made_entry nothing, if_pos rfl]
    have after : (d.made t.place).leads path = some (.file t.place) :=
      leads_eq_some.mpr ⟨_, _, lookup_eq_ok.mpr
        ⟨t, (made_grows nothing).resolve.mpr resolved, short, rfl, file, fun _ => plain⟩, rfl⟩
    refine .inr ⟨t.place, rfl, .inr ⟨before, nothing, ?_, after⟩⟩
    simp only [opened, nothing, made]

theorem opens (there : d.opening path = .ok node) : Opened d path (⟨node, 0⟩ : OpenFile) (d.opened node) := by
  have permitted : ∃ node, d.opening path = .ok node := ⟨node, there⟩
  cases opened_cases there with
  | inl device =>
      obtain ⟨special, leads, same⟩ := device
      rw [same]
      refine ⟨permitted, (Alike.refl _ d).differs, leads, .inl leads, rfl, fun file => ?_, rfl⟩
      cases special.symm.trans file
  | inr file =>
      obtain ⟨place, rfl, made⟩ := file
      have emptied (f : Node) (away : f ∉ ({.file place} : Set Node)) :
          (d.store place ∅).contents f = d.contents f := (contents_store ..).trans (if_neg away)
      have empty : (d.store place ∅).contents (.file place) = ∅ := by rw [contents_store, if_pos rfl]
      cases made with
      | inl known =>
          obtain ⟨leads, same⟩ := known
          have alike : Alike {.file place} d (d.store place ∅) :=
            (d.store_grows place ∅).alike emptied fun _ => rfl
          rw [same]
          exact ⟨permitted, alike.differs, (alike.leads path).trans leads, .inl leads, rfl, fun _ => empty, rfl⟩
      | inr new =>
          obtain ⟨before, nothing, same, after⟩ := new
          rw [same]
          have fresh : Fresh d (Node.file place) := by
            refine ⟨rfl, nofun, fun other leads => ?_⟩
            obtain ⟨q, entry, found, node⟩ := leads_eq_some.mp leads
            obtain ⟨t, -, -, -, at_place, -⟩ := lookup_eq_ok.mp found
            obtain ⟨rfl, -⟩ := file_of_node node
            cases nothing.symm.trans at_place
          exact ⟨permitted, (made_grows nothing).differs emptied fun _ => rfl, after, .inr ⟨before, fresh⟩, rfl,
            fun _ => empty, rfl⟩

theorem wrote_file (d : Disk) (place : Place) (position : Nat) (fault? : Option OsFault) {taken : Nat}
    {piece : ByteArray} (part : taken ≤ piece.size) (whole : fault? = none → taken = piece.size)
    (room : ∀ why, fault? = some why → why = .noSpace) :
    let file : OpenFile := ⟨.file place, position⟩
    Wrote d file piece (file.wrote taken fault?)
      (d.store place (overlay position (piece.extract 0 taken) (d.octetsAt place))) := by
  refine ⟨?_, rfl, rfl, part, whole, fun _ => ?_, fun _ => room, nofun⟩
  · exact (d.store_grows place _).alike (fun f away => (contents_store ..).trans (if_neg away)) fun _ => rfl
  · exact (contents_store ..).trans (if_pos rfl)

theorem wrote (d : Disk) (file : OpenFile) (piece : ByteArray) :
    Wrote d file piece (d.write file piece).1 (d.write file piece).2 := by
  obtain ⟨node, position⟩ := file
  cases node with
  | file place =>
      dsimp only [write]
      split
      · next short => exact d.wrote_file place position _ short.le nofun fun _ same => (Option.some.inj same).symm
      · have all := d.wrote_file place position none (le_refl piece.size) (fun _ => rfl) nofun
        rwa [ByteArray.extract_zero_size] at all
  | fullDevice =>
      refine ⟨.refl _ d, rfl, rfl, Nat.zero_le _, fun none => ?_, nofun, nofun, nofun⟩
      by_cases nothing : piece.size = 0
      · exact nothing.symm
      · cases (if_neg nothing).symm.trans none
  | directory | nullDevice => exact ⟨.refl _ d, rfl, rfl, le_rfl, fun _ => rfl, nofun, nofun, nofun⟩
  | stream which =>
      refine ⟨d.put_alike which piece, rfl, rfl, le_rfl, fun _ => rfl, nofun, nofun, ?_⟩
      rintro ⟨⟩
      have whole : (d.displayed .output ++ piece) = d.displayed .output ++ piece.extract 0 piece.size := by
        rw [ByteArray.extract_zero_size]
      exact whole

end Disk

instance : FileLaws Disk where
  kind?_run _ _ := rfl
  readText_unchanged _ _ := rfl
  readText_file d path f leads file := by
    obtain ⟨place, entry, found, rfl⟩ := Disk.leads_eq_some.mp leads
    have readable : FileView.unreadable? d path = d.unreadable? path := rfl
    change d.readText path = _
    rw [Disk.readText, reading, readable, Disk.unreadable?, found]
    cases entry with
    | file r w => cases r <;> rfl
    | directory | nullDevice | fullDevice | stream => cases file
  create_run d path := by
    cases opening : d.opening path with
    | error why =>
        refine .inl ⟨why, by simp only [Files.create, opening], .inl ?_⟩
        rintro ⟨node, permitted⟩
        cases opening.symm.trans permitted
    | ok node =>
        exact .inr ⟨⟨node, 0⟩, d.opened node, by simp only [Files.create, opening], Disk.opens opening⟩
  write_run := Disk.wrote
  write_device d e := by
    rintro ⟨node, position⟩ ⟨_, position'⟩ piece ⟨⟩ special
    cases node with
    | file => cases special
    | directory | nullDevice | fullDevice | stream => exact ⟨rfl, rfl⟩
  print_output d text := ⟨d.put_alike .output text.toUTF8, rfl⟩
  print_error d text := by
    have grows : Disk.Grows ∅ d (d.put .error text.toUTF8) := ⟨rfl, rfl, fun _ => .inl rfl⟩
    exact ⟨grows.alike (fun _ _ => rfl) fun _ => rfl, rfl⟩

end WordWalk
