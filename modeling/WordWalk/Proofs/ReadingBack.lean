import WordWalk.Json.Printer
import WordWalk.Proofs.Reading

/-! # Reading back what was written

A string between quotes is read as itself, whatever characters it has, and what follows it is
left. The same goes for lists and objects of values that are read back.
-/

namespace WordWalk.Json

namespace Reader

/-! ### Strings -/

theorem stringFrom_quote (read rest : List Char) :
    stringFrom read ('"' :: rest) = .ok (String.ofList read.reverse, rest) := by
  simp [stringFrom]

theorem stringFrom_letter {c e : Char} (letter : escaped? c = some e) (read rest : List Char) :
    stringFrom read ('\\' :: c :: rest) = stringFrom (e :: read) rest := by
  have noHex : c ≠ 'u' := by
    rintro rfl
    cases letter
  rw [stringFrom, letter]
  · exact fun _ _ _ _ _ same => absurd same noHex
  · exact noHex

theorem stringFrom_plain {c : Char} (noQuote : c ≠ '"') (noBackslash : c ≠ '\\') (printable : ¬ c.toNat < 0x20)
    (read rest : List Char) : stringFrom read (c :: rest) = stringFrom (c :: read) rest := by
  rw [stringFrom, if_neg printable]
  · exact noQuote
  all_goals intros; contradiction

theorem hex_control : ∀ n < 0x20, hexValue4? '0' '0' (hexDigit (n / 16)) (hexDigit (n % 16)) = some n := by
  decide

theorem stringFrom_hex {n : Nat} (control : n < 0x20) (read rest : List Char) :
    stringFrom read ('\\' :: 'u' :: '0' :: '0' :: hexDigit (n / 16) :: hexDigit (n % 16) :: rest) =
      stringFrom (Char.ofNat n :: read) rest := by
  have low : isLowSurrogate n = false := by
    simp [isLowSurrogate]
    omega
  have high : isHighSurrogate n = false := by
    simp [isHighSurrogate]
    omega
  rw [stringFrom, hex_control n control]
  simp [low, high]

theorem stringFrom_escapeChar (c : Char) (read rest : List Char) :
    stringFrom read (escapeChar c ++ rest) = stringFrom (c :: read) rest := by
  fun_cases escapeChar c
  case case8 control =>
      have back := stringFrom_hex control read rest
      rw [Char.ofNat_toNat] at back
      exact back
  case case9 noQuote noBackslash _ _ _ _ _ printable =>
      exact stringFrom_plain noQuote noBackslash printable read rest
  -- The seven others are written as a backslash and a letter.
  all_goals
    subst c
    exact stringFrom_letter rfl read rest

theorem stringFrom_flatMap (cs read rest : List Char) :
    stringFrom read (cs.flatMap escapeChar ++ '"' :: rest) = .ok (String.ofList (read.reverse ++ cs), rest) := by
  induction cs generalizing read with
  | nil => rw [List.flatMap_nil, List.nil_append, stringFrom_quote, List.append_nil]
  | cons c cs ih =>
      rw [List.flatMap_cons, List.append_assoc, stringFrom_escapeChar, ih, List.reverse_cons, List.append_assoc,
        List.singleton_append]

theorem string_written (s : String) (rest : List Char) :
    string (s.toList.flatMap escapeChar ++ '"' :: rest) = .ok (s, rest) := by
  rw [string, stringFrom_flatMap, List.reverse_nil, List.nil_append, String.ofList_toList]

theorem quote_append (s : String) (rest : List Char) :
    quote s ++ rest = '"' :: (s.toList.flatMap escapeChar ++ '"' :: rest) := by
  simp [quote]

/-! ### Lists and objects -/

variable {α : Type}

/-- Written elements with commas between them. -/
def separated (chars : α → List Char) : List α → List Char
  | [] => []
  | x :: xs => chars x ++ xs.flatMap fun x => ',' :: chars x

def memberChars (m : String × Json) : List Char := quote m.1 ++ ':' :: compactChars m.2

theorem compactItems_eq (items : List Json) : compactItems items = separated compactChars items := by
  induction items with
  | nil => rfl
  | cons item rest ih =>
      cases rest with
      | nil => simp [compactItems, separated]
      | cons next rest =>
          rw [compactItems, ih]
          · simp [separated]
          · exact nofun

theorem compactMembers_eq (members : List (String × Json)) :
    compactMembers members = separated memberChars members := by
  induction members with
  | nil => rfl
  | cons m rest ih =>
      cases rest with
      | nil => simp [compactMembers, separated, memberChars]
      | cons next rest =>
          rw [compactMembers, ih]
          · simp [separated, memberChars]
          · exact nofun

theorem separated_map {β : Type} (chars : β → List Char) (f : α → β) (xs : List α) :
    separated chars (xs.map f) = separated (fun x => chars (f x)) xs := by
  cases xs <;> simp [separated, List.flatMap_map]

theorem length_le_separated (chars : α → List Char) (xs : List α) :
    xs.length ≤ (separated chars xs).length + 1 := by
  have commas (xs : List α) : xs.length ≤ (xs.flatMap fun x => ',' :: chars x).length := by
    induction xs with
    | nil => exact Nat.le_refl _
    | cons x xs ih =>
        simp only [List.flatMap_cons, List.length_append, List.length_cons]
        omega
  cases xs with
  | nil => exact Nat.zero_le _
  | cons x xs =>
      have := commas xs
      simp only [separated, List.length_append, List.length_cons]
      omega

theorem length_chars_le (chars : α → List Char) {xs : List α} {x : α} (member : x ∈ xs) :
    (chars x).length ≤ (separated chars xs).length := by
  cases member with
  | head => simp [separated]
  | tail y later =>
      obtain ⟨front, back, rfl⟩ := List.append_of_mem later
      simp only [separated, List.flatMap_append, List.flatMap_cons, List.length_append, List.length_cons]
      omega

theorem skipBlanks_cons {c : Char} (solid : isBlank c = false) (rest : List Char) :
    skipBlanks (c :: rest) = c :: rest := by
  simp [skipBlanks, solid]

variable {close : Char} {element : List Char → α → List Char → Prop} {chars : α → List Char} {xs : List α}

theorem series_written (solid : isBlank close = false)
    (each : ∀ x ∈ xs, ∀ rest, element (skipBlanks (chars x ++ rest)) x rest) (rest : List Char) :
    Series close element xs ((xs.flatMap fun x => ',' :: chars x) ++ close :: rest) rest := by
  induction xs with
  | nil => exact skipBlanks_cons solid rest
  | cons x xs ih =>
      refine ⟨_, _, ?_, each x List.mem_cons_self _, ih fun y later => each y (List.mem_cons_of_mem _ later)⟩
      simp [skipBlanks_cons (show isBlank ',' = false from rfl)]

theorem enclosed_written (solid : isBlank close = false)
    (each : ∀ x ∈ xs, ∀ rest, element (skipBlanks (chars x ++ rest)) x rest) (rest : List Char) :
    Enclosed close element xs (separated chars xs ++ close :: rest) rest := by
  cases xs with
  | nil => exact skipBlanks_cons solid rest
  | cons x xs =>
      have first := each x List.mem_cons_self ((xs.flatMap fun x => ',' :: chars x) ++ close :: rest)
      rw [← List.append_assoc] at first
      exact ⟨_, first, series_written solid (fun y later => each y (List.mem_cons_of_mem _ later)) rest⟩

/-- What is written is read back, whatever comes after it, if the fuel is enough for its
    length. It starts where a reader of lists expects an item. -/
structure ReadsBack (fuel : Nat) (reader : Reader α) (write : α → Json) : Prop where
  opens : ∀ x, ∃ c more, compactChars (write x) = c :: more ∧ isBlank c = false ∧ c ≠ ']'
  reads : ∀ x rest, (compactChars (write x)).length ≤ fuel →
    reader (compactChars (write x) ++ rest) = .ok (x, rest)

variable {fuel : Nat} {item value : Reader α} {write : α → Json}

theorem readsBack_text (fuel : Nat) : ReadsBack fuel text .text where
  opens s := ⟨'"', _, rfl, rfl, by decide⟩
  reads s rest _ := by
    rw [compactChars, quote_append, text_eq_ok]
    exact ⟨_, skipBlanks_cons rfl _, string_written s rest⟩

theorem ReadsBack.solid (h : ReadsBack fuel item write) (x : α) (rest : List Char) :
    skipBlanks (compactChars (write x) ++ rest) = compactChars (write x) ++ rest := by
  obtain ⟨c, more, starts, solid, -⟩ := h.opens x
  rw [starts]
  exact skipBlanks_cons solid _

theorem ReadsBack.listItem (h : ReadsBack fuel item write) {x : α}
    (enough : (compactChars (write x)).length ≤ fuel) (rest : List Char) :
    ListItem item (skipBlanks (compactChars (write x) ++ rest)) x rest := by
  obtain ⟨c, more, starts, -, other⟩ := h.opens x
  rw [h.solid]
  exact ⟨⟨c, more ++ rest, by rw [starts, List.cons_append], other⟩, h.reads x rest enough⟩

theorem ReadsBack.objectMember (h : ReadsBack fuel value write) {m : String × α}
    (enough : (compactChars (write m.2)).length ≤ fuel) (rest : List Char) :
    ObjectMember value (skipBlanks (memberChars (m.1, write m.2) ++ rest)) m rest := by
  have starts : memberChars (m.1, write m.2) ++ rest =
      '"' :: (m.1.toList.flatMap escapeChar ++ '"' :: (':' :: (compactChars (write m.2) ++ rest))) := by
    simp [memberChars, quote]
  rw [starts, skipBlanks_cons rfl]
  exact ⟨_, rfl, member_eq_ok.mpr ⟨_, _, string_written _ _, rfl, h.reads m.2 rest enough⟩⟩

theorem ReadsBack.listOf (h : ReadsBack fuel item write) :
    ReadsBack fuel (listOf fuel item) fun xs => .list (xs.map write) where
  opens xs := ⟨'[', _, rfl, rfl, by decide⟩
  reads xs rest enough := by
    rw [compactChars, compactItems_eq, separated_map] at enough ⊢
    simp only [List.length_append, List.length_cons, List.length_nil] at enough
    have count := length_le_separated (fun x => compactChars (write x)) xs
    rw [listOf_eq_ok, List.cons_append, List.cons_append, List.append_assoc]
    refine ⟨_, skipBlanks_cons rfl _, items_eq_ok.mpr ⟨by omega, ?_⟩⟩
    refine enclosed_written rfl (fun x member rest => h.listItem ?_ rest) rest
    have part := length_chars_le (fun x => compactChars (write x)) member
    omega

theorem ReadsBack.objectOf (h : ReadsBack fuel value write) :
    ReadsBack fuel (objectOf fuel value) fun ms => .object (ms.map fun m => (m.1, write m.2)) where
  opens ms := ⟨'\x7b', _, rfl, rfl, by decide⟩
  reads ms rest enough := by
    rw [compactChars, compactMembers_eq, separated_map] at enough ⊢
    simp only [List.length_append, List.length_cons, List.length_nil] at enough
    have count := length_le_separated (fun m : String × α => memberChars (m.1, write m.2)) ms
    rw [objectOf_eq_ok, List.cons_append, List.cons_append, List.append_assoc]
    refine ⟨_, skipBlanks_cons rfl _, members_eq_ok.mpr ⟨by omega, ?_⟩⟩
    refine enclosed_written rfl (fun m member rest => h.objectMember ?_ rest) rest
    have part := length_chars_le (fun m : String × α => memberChars (m.1, write m.2)) member
    have valued : (compactChars (write m.2)).length ≤ (memberChars (m.1, write m.2)).length := by
      simp only [memberChars, List.length_append, List.length_cons]
      omega
    omega

theorem twoItems_of_items {expected : Expected} {cs left more last rest : List Char} {x y : α}
    (first : ListItem item (skipBlanks cs) x left) (comma : skipBlanks left = ',' :: more)
    (second : ListItem item (skipBlanks more) y last) (closed : closeList last = .ok rest) :
    twoItems expected item cs = .ok ((x, y), rest) := by
  rw [twoItems]
  split
  case h_1 ended => exact absurd ended (first.not_closing []).1
  case h_2 more ended => exact absurd ended (first.not_closing more).2
  case h_3 =>
      refine bind_eq_ok.mpr ⟨_, first.2, ?_⟩
      simp only [comma]
      split
      case h_1 ended => exact absurd ended (second.not_closing []).1
      case h_2 more ended => exact absurd ended (second.not_closing more).2
      case h_3 =>
          refine bind_eq_ok.mpr ⟨_, second.2, ?_⟩
          rw [closed]
          rfl

theorem ReadsBack.pairOf (h : ReadsBack fuel item write) :
    ReadsBack fuel (pairOf item) fun pair => .list [write pair.1, write pair.2] where
  opens _ := ⟨'[', _, rfl, rfl, by decide⟩
  reads pair rest enough := by
    have chars : compactChars (.list [write pair.1, write pair.2]) ++ rest =
        '[' :: (compactChars (write pair.1) ++ ',' :: (compactChars (write pair.2) ++ ']' :: rest)) := by
      simp [compactChars, compactItems]
    have lengths := congrArg List.length chars
    simp only [List.length_append, List.length_cons] at lengths
    have first (rest : List Char) := h.listItem (x := pair.1) (by omega) rest
    have second (rest : List Char) := h.listItem (x := pair.2) (by omega) rest
    rw [chars, Reader.pairOf, skipBlanks_cons rfl]
    exact twoItems_of_items (first _) (skipBlanks_cons rfl _) (second _) rfl

end Reader

theorem read_compact {α : Type} {reader : Nat → Reader α} {write : α → Json}
    (h : ∀ fuel, Reader.ReadsBack fuel (reader fuel) write) (x : α) : read reader (write x).compact = .ok x := by
  have taken := (h _).reads x [] (Nat.le_refl _)
  rw [List.append_nil] at taken
  rw [read_eq_ok, compact, String.toList_ofList]
  exact ⟨[], taken, rfl⟩

end WordWalk.Json
