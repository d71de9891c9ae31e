import WordWalk.Json.Reader
import WordWalk.Proofs.Outcome

/-! # What readers accept

A reader of lists or objects works through its items with a stack and with fuel. What it
accepts needs neither: elements with commas between them up to the closing character. A reader
of a fixed shape accepts exactly what the reader for all values finds to be of that shape.
-/

namespace WordWalk.Json

namespace Reader

variable {α β : Type} {cs rest : List Char}

/-! ### Elements up to a closing character -/

/-- Further elements of a list or an object, each after a comma, and the closing character. -/
def Series (close : Char) (element : List Char → α → List Char → Prop) :
    List α → List Char → List Char → Prop
  | [], cs, rest => skipBlanks cs = close :: rest
  | x :: xs, cs, rest =>
      ∃ more left, skipBlanks cs = ',' :: more ∧ element (skipBlanks more) x left ∧
        Series close element xs left rest

/-- The elements of a list or an object, and the closing character. -/
def Enclosed (close : Char) (element : List Char → α → List Char → Prop) :
    List α → List Char → List Char → Prop
  | [], cs, rest => skipBlanks cs = close :: rest
  | x :: xs, cs, rest => ∃ left, element (skipBlanks cs) x left ∧ Series close element xs left rest

def ListItem (item : Reader α) (cs : List Char) (x : α) (rest : List Char) : Prop :=
  (∃ c more, cs = c :: more ∧ c ≠ ']') ∧ item cs = .ok (x, rest)

def ObjectMember (value : Reader α) (cs : List Char) (m : String × α) (rest : List Char) : Prop :=
  ∃ more, cs = '"' :: more ∧ member value more = .ok (m, rest)

/-- What one round of a loop over elements does, if it succeeds. -/
structure Rounds (close : Char) (element : List Char → α → List Char → Prop)
    (loop : Nat → List α → Reader (List α)) : Prop where
  stuck : ∀ read cs p, loop 0 read cs ≠ .ok p
  round : ∀ fuel read cs ys rest, loop (fuel + 1) read cs = .ok (ys, rest) ↔
    (skipBlanks cs = close :: rest ∧ ys = read.reverse) ∨
    ∃ more x left, skipBlanks cs = ',' :: more ∧ element (skipBlanks more) x left ∧
      loop fuel (x :: read) left = .ok (ys, rest)

/-- A loop whose rounds are known appends a series to what it has read before. Every element
    takes one of its rounds, and the closing character another one. -/
theorem Rounds.loop_eq_ok {close : Char} {element : List Char → α → List Char → Prop}
    {loop : Nat → List α → Reader (List α)} (rounds : Rounds close element loop) {fuel : Nat}
    {read ys : List α} :
    loop fuel read cs = .ok (ys, rest) ↔
      ∃ xs, ys = read.reverse ++ xs ∧ xs.length < fuel ∧ Series close element xs cs rest := by
  induction fuel generalizing read cs with
  | zero =>
      refine iff_of_false (rounds.stuck read cs _) ?_
      rintro ⟨xs, -, short, -⟩
      exact absurd short (Nat.not_lt_zero _)
  | succ fuel ih =>
      rw [rounds.round]
      constructor
      · rintro (⟨closed, rfl⟩ | ⟨more, x, left, comma, first, others⟩)
        · exact ⟨[], (List.append_nil _).symm, Nat.succ_pos _, closed⟩
        · obtain ⟨xs, rfl, short, series⟩ := ih.mp others
          refine ⟨x :: xs, ?_, Nat.succ_lt_succ short, more, left, comma, first, series⟩
          rw [List.reverse_cons, List.append_assoc, List.singleton_append]
      · rintro ⟨xs, rfl, short, series⟩
        cases xs with
        | nil => exact .inl ⟨series, List.append_nil _⟩
        | cons x xs =>
            obtain ⟨more, left, comma, first, others⟩ := series
            refine .inr ⟨more, x, left, comma, first, ih.mpr ⟨xs, ?_, Nat.lt_of_succ_lt_succ short, others⟩⟩
            rw [List.reverse_cons, List.append_assoc, List.singleton_append]

theorem Rounds.first_eq_ok {close : Char} {element : List Char → α → List Char → Prop}
    {loop : Nat → List α → Reader (List α)} (rounds : Rounds close element loop) {fuel : Nat}
    {xs : List α} (isOpen : skipBlanks cs ≠ close :: rest) :
    (∃ x left, element (skipBlanks cs) x left ∧ loop fuel [x] left = .ok (xs, rest)) ↔
      xs.length ≤ fuel ∧ Enclosed close element xs cs rest := by
  simp only [rounds.loop_eq_ok, List.reverse_singleton, List.singleton_append]
  constructor
  · rintro ⟨x, left, first, xs, rfl, short, others⟩
    exact ⟨short, left, first, others⟩
  · rintro ⟨short, enclosed⟩
    cases xs with
    | nil => exact absurd enclosed isOpen
    | cons x xs =>
        obtain ⟨left, first, others⟩ := enclosed
        exact ⟨x, left, first, xs, rfl, short, others⟩

theorem listItem_iff {item : Reader α} {x : α} (more : cs = [] → False)
    (isOpen : ∀ rest, cs = ']' :: rest → False) : ListItem item cs x rest ↔ item cs = .ok (x, rest) := by
  cases cs with
  | nil => exact absurd rfl more
  | cons c cs =>
      have other : c ≠ ']' := fun closed => isOpen cs (by rw [closed])
      exact and_iff_right ⟨c, cs, rfl, other⟩

theorem ListItem.not_closing {item : Reader α} {x : α} (h : ListItem item cs x rest) (more : List Char) :
    cs ≠ [] ∧ cs ≠ ']' :: more := by
  obtain ⟨⟨c, front, rfl, other⟩, -⟩ := h
  exact ⟨List.cons_ne_nil c front, fun same => other (List.cons.inj same).1⟩

theorem rounds_itemsFrom (item : Reader α) : Rounds ']' (ListItem item) (itemsFrom item) := by
  refine ⟨fun _ _ _ => nofun, fun fuel read cs ys rest => ?_⟩
  rw [itemsFrom]
  split
  case h_1 ended => simp [ended]
  case h_2 closed => simp [closed, eq_comm, and_comm]
  case h_3 more comma =>
      rw [comma]
      split
      case h_1 ended => simp [ended, ListItem]
      case h_2 closed => simp [closed, ListItem]
      case h_3 some isOpen => simp [bind_eq_ok, listItem_iff some isOpen]
  case h_4 isOpen single =>
      refine iff_of_false nofun ?_
      rintro (⟨closed, -⟩ | ⟨more, -, -, comma, -⟩)
      · exact isOpen rest closed
      · exact single more comma

theorem rounds_membersFrom (value : Reader α) :
    Rounds '\x7d' (ObjectMember value) (membersFrom value) := by
  refine ⟨fun _ _ _ => nofun, fun fuel read cs ys rest => ?_⟩
  rw [membersFrom]
  split
  case h_1 ended => simp [ended]
  case h_2 closed => simp [closed, eq_comm, and_comm]
  case h_3 more comma =>
      rw [comma]
      split
      case h_1 ended => simp [ended, ObjectMember]
      case h_2 quoted => simp [quoted, ObjectMember, bind_eq_ok]
      case h_3 closed => simp [closed, ObjectMember]
      case h_4 unquoted _ =>
          refine iff_of_false nofun ?_
          rintro (⟨closed, -⟩ | ⟨_, _, _, same, ⟨name, quoted, -⟩, -⟩)
          · simp at closed
          · cases same
            exact unquoted name quoted
  case h_4 isOpen single =>
      refine iff_of_false nofun ?_
      rintro (⟨closed, -⟩ | ⟨more, -, -, comma, -⟩)
      · exact isOpen rest closed
      · exact single more comma

theorem items_eq_ok {fuel : Nat} {item : Reader α} {xs : List α} :
    items fuel item cs = .ok (xs, rest) ↔ xs.length ≤ fuel ∧ Enclosed ']' (ListItem item) xs cs rest := by
  rw [items]
  split
  case h_1 ended => cases xs <;> simp [ended, Enclosed, ListItem]
  case h_2 closed => cases xs <;> simp [closed, Enclosed, ListItem, eq_comm]
  case h_3 some isOpen =>
      rw [← (rounds_itemsFrom item).first_eq_ok fun closed => isOpen rest closed]
      simp [bind_eq_ok, listItem_iff some isOpen]

theorem members_eq_ok {fuel : Nat} {value : Reader α} {ms : List (String × α)} :
    members fuel value cs = .ok (ms, rest) ↔
      ms.length ≤ fuel ∧ Enclosed '\x7d' (ObjectMember value) ms cs rest := by
  rw [members]
  split
  case h_1 ended => cases ms <;> simp [ended, Enclosed, ObjectMember]
  case h_2 closed => cases ms <;> simp [closed, Enclosed, ObjectMember, eq_comm]
  case h_3 quoted =>
      rw [← (rounds_membersFrom value).first_eq_ok (by simp [quoted])]
      simp [bind_eq_ok, quoted, ObjectMember]
  case h_4 isOpen unquoted =>
      refine iff_of_false nofun ?_
      rintro ⟨-, enclosed⟩
      cases ms with
      | nil => exact isOpen rest enclosed
      | cons m ms =>
          obtain ⟨-, ⟨name, quoted, -⟩, -⟩ := enclosed
          exact unquoted name quoted

/-! ### Values of a fixed shape -/

/-- The reader takes what another reader finds to be written in a certain way, and nothing else. -/
def Refines (reader : Reader α) (other : Reader β) (write : α → β) : Prop :=
  ∀ cs x rest, reader cs = .ok (x, rest) ↔ other cs = .ok (write x, rest)

theorem Series.map_iff {close : Char} {element : List Char → α → List Char → Prop}
    {other : List Char → β → List Char → Prop} {write : α → β}
    (h : ∀ cs x rest, element cs x rest ↔ other cs (write x) rest) {xs : List α} :
    Series close element xs cs rest ↔ Series close other (xs.map write) cs rest := by
  induction xs generalizing cs with
  | nil => rfl
  | cons x xs ih => simp only [Series, List.map_cons, h, ih]

theorem Enclosed.map_iff {close : Char} {element : List Char → α → List Char → Prop}
    {other : List Char → β → List Char → Prop} {write : α → β}
    (h : ∀ cs x rest, element cs x rest ↔ other cs (write x) rest) {xs : List α} :
    Enclosed close element xs cs rest ↔ Enclosed close other (xs.map write) cs rest := by
  cases xs with
  | nil => rfl
  | cons x xs => simp only [Enclosed, List.map_cons, h, Series.map_iff h]

variable {item : Reader α} {value : Reader α} {other : Reader β} {write : α → β}

theorem Refines.items (h : Refines item other write) (fuel : Nat) :
    Refines (items fuel item) (items fuel other) (List.map write) := by
  intro cs xs rest
  have same : ∀ cs x rest, ListItem item cs x rest ↔ ListItem other cs (write x) rest :=
    fun cs x rest => and_congr_right fun _ => h cs x rest
  rw [items_eq_ok, items_eq_ok, List.length_map, Enclosed.map_iff same]

theorem member_eq_ok {m : String × α} :
    member value cs = .ok (m, rest) ↔
      ∃ more left, string cs = .ok (m.1, more) ∧ colon more = .ok left ∧ value left = .ok (m.2, rest) := by
  obtain ⟨name, x⟩ := m
  simp only [member, bind_eq_ok, Prod.exists]
  constructor
  · rintro ⟨_, more, named, left, separated, _, _, valued, same⟩
    cases same
    exact ⟨more, left, named, separated, valued⟩
  · rintro ⟨more, left, named, separated, valued⟩
    exact ⟨name, more, named, left, separated, x, rest, valued, rfl⟩

theorem Refines.members (h : Refines value other write) (fuel : Nat) :
    Refines (members fuel value) (members fuel other) (List.map fun m => (m.1, write m.2)) := by
  intro cs ms rest
  have same (cs : List Char) (m : String × α) (rest : List Char) :
      ObjectMember value cs m rest ↔ ObjectMember other cs (m.1, write m.2) rest :=
    exists_congr fun more => and_congr_right fun _ => by simp only [member_eq_ok, h _ _ _]
  rw [members_eq_ok, members_eq_ok, List.length_map, Enclosed.map_iff same]

theorem scalar_eq_ok_text {s : String} :
    scalar cs = .ok (.text s, rest) ↔ ∃ more, cs = '"' :: more ∧ string more = .ok (s, rest) := by
  unfold scalar
  split
  case h_7 c more _ _ _ unquoted _ =>
      refine iff_of_false ?_ ?_
      · split <;> simp [map_eq_ok]
      · rintro ⟨_, same, -⟩
        cases same
        exact unquoted rfl
  all_goals simp [map_eq_ok]

theorem kind_of_scalar {v : Json} (read : scalar cs = .ok (v, rest)) :
    v.kind ≠ .list ∧ v.kind ≠ .object := by
  unfold scalar at read
  split at read
  case h_7 =>
      split at read
      · obtain ⟨_, -, same⟩ := map_eq_ok.mp read
        cases same
        exact ⟨nofun, nofun⟩
      · cases read
  case h_1 => cases read
  all_goals
    obtain ⟨_, -, same⟩ := map_eq_ok.mp read
    cases same
    exact ⟨nofun, nofun⟩

theorem mismatch_ne_ok {expected : Expected} {p : α × List Char} : mismatch expected cs ≠ .ok p := by
  unfold mismatch
  split <;> simp [bind_eq_ok]

theorem text_eq_ok {s : String} :
    text cs = .ok (s, rest) ↔ ∃ more, skipBlanks cs = '"' :: more ∧ string more = .ok (s, rest) := by
  unfold text
  split
  case h_1 more quoted => simp [quoted]
  case h_2 unquoted =>
      refine iff_of_false mismatch_ne_ok ?_
      rintro ⟨more, quoted, -⟩
      exact unquoted more quoted

theorem listOf_eq_ok {fuel : Nat} {xs : List α} :
    listOf fuel item cs = .ok (xs, rest) ↔
      ∃ more, skipBlanks cs = '[' :: more ∧ Reader.items fuel item more = .ok (xs, rest) := by
  unfold listOf
  split
  case h_1 more opened => simp [opened]
  case h_2 unopened =>
      refine iff_of_false mismatch_ne_ok ?_
      rintro ⟨more, opened, -⟩
      exact unopened more opened

theorem objectOf_eq_ok {fuel : Nat} {ms : List (String × α)} :
    objectOf fuel value cs = .ok (ms, rest) ↔
      ∃ more, skipBlanks cs = '\x7b' :: more ∧ Reader.members fuel value more = .ok (ms, rest) := by
  unfold objectOf
  split
  case h_1 more opened => simp [opened]
  case h_2 unopened =>
      refine iff_of_false mismatch_ne_ok ?_
      rintro ⟨more, opened, -⟩
      exact unopened more opened

theorem any_eq_ok_text {fuel depth : Nat} {s : String} :
    any fuel depth cs = .ok (.text s, rest) ↔ text cs = .ok (s, rest) := by
  rw [text_eq_ok, ← scalar_eq_ok_text]
  cases depth with
  | zero =>
      rw [any]
      split
      case h_1 opened => simp [opened, scalar]
      case h_2 opened => simp [opened, scalar]
      case h_3 => rfl
  | succ depth =>
      rw [any]
      split
      case h_1 opened => simp [opened, scalar, map_eq_ok]
      case h_2 opened => simp [opened, scalar, map_eq_ok, ofMembers]
      case h_3 => rfl

theorem any_eq_ok_list {fuel depth : Nat} {xs : List Json} :
    any fuel (depth + 1) cs = .ok (.list xs, rest) ↔ listOf fuel (any fuel depth) cs = .ok (xs, rest) := by
  rw [listOf_eq_ok, any]
  split
  case h_1 more opened => simp [opened, map_eq_ok]
  case h_2 opened => simp [opened, map_eq_ok, ofMembers]
  case h_3 unopened _ =>
      refine iff_of_false (fun read => (kind_of_scalar read).1 rfl) ?_
      rintro ⟨more, opened, -⟩
      exact unopened more opened

theorem any_eq_ok_object {fuel depth : Nat} {ms : List (String × Json)} :
    any fuel (depth + 1) cs = .ok (.object ms, rest) ↔
      ∃ all, objectOf fuel (any fuel depth) cs = .ok (all, rest) ∧ ofMembers all = .object ms := by
  simp only [objectOf_eq_ok]
  rw [any]
  split
  case h_1 more opened => simp [opened, map_eq_ok]
  case h_2 opened => simp [opened, map_eq_ok]
  case h_3 _ unopened =>
      refine iff_of_false (fun read => (kind_of_scalar read).2 rfl) ?_
      rintro ⟨_, ⟨more, opened, -⟩, -⟩
      exact unopened more opened

theorem refines_text (fuel depth : Nat) : Refines text (any fuel depth) .text :=
  fun _ _ _ => any_eq_ok_text.symm

theorem Refines.listOf {fuel depth : Nat} {write : α → Json} (h : Refines item (any fuel depth) write) :
    Refines (listOf fuel item) (any fuel (depth + 1)) fun xs => .list (xs.map write) := by
  intro cs xs rest
  rw [any_eq_ok_list, listOf_eq_ok, listOf_eq_ok]
  exact exists_congr fun more => and_congr_right fun _ => h.items fuel more xs rest

theorem Refines.objectOf (h : Refines value other write) (fuel : Nat) :
    Refines (objectOf fuel value) (objectOf fuel other) (List.map fun m => (m.1, write m.2)) := by
  intro cs ms rest
  rw [objectOf_eq_ok, objectOf_eq_ok]
  exact exists_congr fun more => and_congr_right fun _ => h.members fuel more ms rest

end Reader

/-! ### Whole documents -/

theorem readAll_eq_ok {α : Type} {reader : Reader α} {cs : List Char} {x : α} :
    readAll reader cs = .ok x ↔ ∃ rest, reader cs = .ok (x, rest) ∧ Reader.skipBlanks rest = [] := by
  simp only [readAll, bind_eq_ok, Prod.exists]
  constructor
  · rintro ⟨y, rest, taken, ended⟩
    split at ended
    case h_1 blank =>
        cases ended
        exact ⟨rest, taken, blank⟩
    case h_2 => cases ended
  · rintro ⟨rest, taken, blank⟩
    refine ⟨x, rest, taken, ?_⟩
    rw [blank]
    rfl

theorem read_eq_ok {α : Type} {reader : Nat → Reader α} {document : String} {x : α} :
    read reader document = .ok x ↔
      ∃ rest, reader document.toList.length document.toList = .ok (x, rest) ∧ Reader.skipBlanks rest = [] := by
  rw [← readAll_eq_ok, read]
  split
  case h_1 y done => rw [done, Except.ok.injEq, Except.ok.injEq]
  case h_2 fault failed => simp [failed]

theorem read_map_eq_ok {α β : Type} {reader : Nat → Reader α} {f : α → β} {document : String} {y : β} :
    read (fun fuel cs => do let (x, rest) ← reader fuel cs; return (f x, rest)) document = .ok y ↔
      ∃ x, read reader document = .ok x ∧ f x = y := by
  simp only [read_eq_ok, bind_eq_ok, Prod.exists]
  constructor
  · rintro ⟨rest, ⟨x, _, taken, same⟩, blank⟩
    cases same
    exact ⟨x, ⟨rest, taken, blank⟩, rfl⟩
  · rintro ⟨x, ⟨rest, taken, blank⟩, rfl⟩
    exact ⟨rest, ⟨x, rest, taken, rfl⟩, blank⟩

theorem read_refines {α β : Type} {reader : Nat → Reader α} {other : Nat → Reader β} {write : α → β}
    (h : ∀ fuel, Reader.Refines (reader fuel) (other fuel) write) {document : String} {x : α} :
    read reader document = .ok x ↔ read other document = .ok (write x) := by
  simp only [read_eq_ok, h _ _ _ _]

/-- The members of a document that is an object, in the order of the text and with names that are
    repeated. -/
def topMembers (document : String) : Except Error (List (String × Json)) :=
  read (fun fuel => Reader.objectOf fuel (Reader.any fuel (Reader.maxDepth - 1))) document

/-- No two members of a document that is an object have one name. -/
def NamesDiffer (document : String) : Prop :=
  ∀ members, topMembers document = .ok members → (members.map Prod.fst).Nodup

theorem parse_eq_ok_object {document : String} {ms : List (String × Json)} :
    parse document = .ok (.object ms) ↔ ∃ all, topMembers document = .ok all ∧ ofMembers all = .object ms := by
  have depth : Reader.maxDepth = (Reader.maxDepth - 1) + 1 := rfl
  simp only [parse, topMembers, read_eq_ok]
  rw [depth]
  simp only [Reader.any_eq_ok_object]
  constructor
  · rintro ⟨rest, ⟨all, taken, kept⟩, blank⟩
    exact ⟨all, ⟨rest, taken, blank⟩, kept⟩
  · rintro ⟨all, ⟨rest, taken, blank⟩, kept⟩
    exact ⟨rest, ⟨all, taken, kept⟩, blank⟩

end WordWalk.Json
