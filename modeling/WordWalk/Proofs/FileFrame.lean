import Mathlib.Data.Set.Basic
import WordWalk.FileLaws

/-! # What stays as it is

Two views of a system that differ in a few files at most show the same everywhere else. So do the
answers of the system about paths that lead elsewhere.
-/

namespace WordWalk

namespace FileView

variable {σ : Type} [Files (StateM σ)] [FileView σ] {hidden more : Set (File σ)} {s e t : σ} {f : File σ}
  {path : String}

namespace Alike

theorem refl (hidden : Set (File σ)) (s : σ) : Alike hidden s s :=
  ⟨fun _ => rfl, fun _ _ => rfl, fun _ => rfl, fun _ => Iff.rfl, fun _ => rfl⟩

theorem trans (h : Alike hidden s e) (g : Alike hidden e t) : Alike hidden s t where
  leads path := (g.leads path).trans (h.leads path)
  contents f away := (g.contents f away).trans (h.contents f away)
  unreadable path := (g.unreadable path).trans (h.unreadable path)
  writable path := (g.writable path).trans (h.writable path)
  output away := (g.output away).trans (h.output away)

theorem mono (h : Alike hidden s e) (le : hidden ⊆ more) : Alike more s e where
  leads := h.leads
  contents f away := h.contents f fun mem => away (le mem)
  unreadable := h.unreadable
  writable := h.writable
  output away := h.output fun mem => away (le mem)

theorem differs (h : Alike hidden s e) : Differs hidden s e where
  leads path := .inl (h.leads path)
  contents := h.contents
  unreadable path _ := h.unreadable path
  writable path _ := h.writable path
  output := h.output

end Alike

namespace Differs

theorem refl (changed : Set (File σ)) (s : σ) : Differs changed s s := (Alike.refl changed s).differs

theorem mono (h : Differs hidden s e) (le : hidden ⊆ more) : Differs more s e where
  leads path := by
    cases h.leads path with
    | inl same => exact .inl same
    | inr new =>
        obtain ⟨nothing, f, mem, leads⟩ := new
        exact .inr ⟨nothing, f, le mem, leads⟩
  contents f away := h.contents f fun mem => away (le mem)
  unreadable := h.unreadable
  writable := h.writable
  output away := h.output fun mem => away (le mem)

theorem known (h : Differs hidden s e) (leads : FileView.leads s path = some f) :
    FileView.leads e path = some f := by
  cases h.leads path with
  | inl same => rw [same, leads]
  | inr new => cases leads.symm.trans new.1

/-- A path that leads to no changed file has not begun to lead anywhere. -/
theorem leads_eq (h : Differs hidden s e) (apart : ∀ f ∈ FileView.leads e path, f ∉ hidden) :
    FileView.leads e path = FileView.leads s path := by
  cases h.leads path with
  | inl same => exact same
  | inr new =>
      obtain ⟨-, f, mem, leads⟩ := new
      exact absurd mem (apart f leads)

theorem between (h : Differs hidden s e) (g : Differs hidden e t)
    (same : FileView.leads t path = FileView.leads s path) : FileView.leads e path = FileView.leads s path := by
  cases h.leads path with
  | inl same => exact same
  | inr new =>
      obtain ⟨nothing, f, -, leads⟩ := new
      cases (g.known leads).symm.trans (same.trans nothing)

theorem trans (h : Differs hidden s e) (g : Differs hidden e t) : Differs hidden s t where
  leads path := by
    cases h.leads path with
    | inl same => exact same ▸ g.leads path
    | inr new =>
        obtain ⟨nothing, f, mem, leads⟩ := new
        exact .inr ⟨nothing, f, mem, g.known leads⟩
  contents f away := (g.contents f away).trans (h.contents f away)
  unreadable path some := by
    obtain ⟨f, leads⟩ := Option.ne_none_iff_exists'.mp some
    rw [g.unreadable path (by rw [h.known leads]; exact Option.some_ne_none f), h.unreadable path some]
  writable path same := by
    have first := h.between g same
    exact (g.writable path (same.trans first.symm)).trans (h.writable path first)
  output away := (g.output away).trans (h.output away)

end Differs

theorem Opened.alone {handle : Files.Handle (StateM σ)} (h : Opened s path handle e)
    (mem : file handle ∈ hidden) : Differs hidden s e :=
  h.differs.mono (Set.singleton_subset_iff.mpr mem)

theorem Wrote.alone {handle : Files.Handle (StateM σ)} {piece : ByteArray}
    {done : Written (Files.Handle (StateM σ))} (h : Wrote s handle piece done e)
    (mem : FileView.file handle ∈ hidden) : Alike hidden s e := h.alike.mono (Set.singleton_subset_iff.mpr mem)

def kindAt? (s : σ) (path : String) : Option EntryKind := (leads s path).map kind

theorem regular_of_place (place : leads s path = some f ∨ leads s path = none ∧ Fresh s f)
    (plain : kindAt? s path ≠ some .special) : kind f = .file := by
  cases place with
  | inr new => exact new.2.file
  | inl there =>
      rw [kindAt?, there, Option.map_some] at plain
      cases kind : kind f with
      | file => rfl
      | special => exact absurd (congrArg some kind) plain

/-- The octets of the file at a path, if there is one. -/
def octets? (s : σ) (path : String) : Option ByteArray :=
  (leads s path).bind fun f => if kind f = .file then some (contents s f) else none

theorem octets?_of_leads (there : leads s path = some f) (file : kind f = .file) :
    octets? s path = some (contents s f) := by
  rw [octets?, there, Option.bind_some, if_pos file]

theorem octets?_of_device (there : leads s path = some f) (device : kind f = .special) : octets? s path = none := by
  rw [octets?, there, Option.bind_some, device, if_neg nofun]

theorem Differs.octets? (h : Differs hidden s e) (apart : ∀ f ∈ FileView.leads e path, f ∉ hidden) :
    octets? e path = FileView.octets? s path := by
  have same := h.leads_eq apart
  rw [FileView.octets?, FileView.octets?, same]
  cases there : FileView.leads s path with
  | none => rfl
  | some f => rw [Option.bind_some, Option.bind_some, h.contents f (apart f (same.trans there))]

def text (s : σ) (path : String) : Except OsFault String := ((Files.readText path : StateM σ _) s).1

theorem reading_congr (contents : FileView.contents e f = FileView.contents s f)
    (unreadable : unreadable? e path = unreadable? s path) : reading e path f = reading s path f := by
  rw [reading, reading, contents, unreadable]

theorem octets_of_reading {text : String} (read : reading s path f = .ok text) : contents s f = text.toUTF8 := by
  unfold reading at read
  split at read
  · cases read
  · unfold String.fromUTF8? at read
    split at read
    · cases read
      rfl
    · cases read

variable [FileLaws σ]

theorem text_of_leads (there : leads s path = some f) (file : kind f = .file) : text s path = reading s path f :=
  FileLaws.readText_file s path f there file

theorem Differs.text (h : Differs hidden s e) (there : FileView.leads s path = some f) (file : kind f = .file)
    (away : f ∉ hidden) : text e path = FileView.text s path := by
  have known := h.known there
  rw [text_of_leads known file, text_of_leads there file]
  exact reading_congr (h.contents f away) (h.unreadable path (by rw [there]; exact Option.some_ne_none f))

end FileView

end WordWalk
