import WordWalk.Proofs.Numerals
import WordWalk.Proofs.ReadingBack

/-! # The pretty form

No two values have the same pretty form. More than that, no value can be mistaken for the beginning
of another one: where a numeral would have to end, what was written and what comes after it are
known from the text. Numbers are taken to be whole here.
-/

namespace WordWalk.Json

/-- All numbers in the value are whole. -/
inductive Whole : Json → Prop
  | null : Whole .null
  | bool (b : Bool) : Whole (.bool b)
  | integer (n : Int) : Whole (.number (.integer n))
  | text (s : String) : Whole (.text s)
  | list {items : List Json} (each : ∀ item ∈ items, Whole item) : Whole (.list items)
  | object {members : List (String × Json)} (each : ∀ m ∈ members, Whole m.2) : Whole (.object members)

variable {α : Type} {v w : Json} {depth : Nat} {r s : List Char}

/-! ## First characters -/

/-- The shape of a value, from its first character. -/
def Kind.ofFirst (c : Char) : Kind :=
  if c = 'n' then .null
  else if c = 't' ∨ c = 'f' then .boolean
  else if c = '"' then .text
  else if c = '[' then .list
  else if c = '\x7b' then .object
  else .number

theorem ofFirst_digit {c : Char} (digit : c.isDigit = true) : Kind.ofFirst c = .number := by
  have other {d : Char} (no : d.isDigit = false) : c ≠ d := by
    intro same
    rw [same, no] at digit
    cases digit
  simp [Kind.ofFirst, other]

theorem Whole.first (h : Whole v) (depth : Nat) :
    ∃ c more, prettyChars depth v = c :: more ∧ Kind.ofFirst c = v.kind := by
  cases h with
  | null => exact ⟨_, _, rfl, rfl⟩
  | bool b => cases b <;> exact ⟨_, _, rfl, rfl⟩
  | integer n =>
      rw [prettyChars, Number.text]
      cases n with
      | ofNat n =>
          change ∃ c more, (toString n).toList = _ ∧ _
          cases digits : (toString n).toList with
          | nil => exact absurd digits (number_text_ne_nil n)
          | cons c more => exact ⟨c, more, rfl, ofFirst_digit (isDigit_of_mem_text (digits ▸ List.mem_cons_self))⟩
      | negSucc n => exact ⟨_, _, toList_negative n, rfl⟩
  | text s => exact ⟨_, _, rfl, rfl⟩
  | list each => cases ‹List Json› <;> exact ⟨_, _, rfl, rfl⟩
  | object each =>
      cases ‹List (String × Json)› with
      | nil => exact ⟨_, _, rfl, rfl⟩
      | cons m rest => exact ⟨_, _, rfl, rfl⟩

/-- Values that begin alike are of one kind. -/
theorem Whole.kind_eq (hv : Whole v) (hw : Whole w) (same : prettyChars depth v ++ r = prettyChars depth w ++ s) :
    v.kind = w.kind := by
  obtain ⟨c, more, starts, kind⟩ := hv.first depth
  obtain ⟨d, others, starts', kind'⟩ := hw.first depth
  rw [starts, starts'] at same
  rw [← kind, ← kind', (List.cons.inj same).1]

/-! ## Cutting a text -/

/-- Where the text of an element ends can be told from the text, and the element too. -/
def Cuts (good : α → Prop) (chars : α → List Char) (x : α) : Prop :=
  ∀ ⦃y : α⦄ ⦃r s : List Char⦄, good y → NumeralEnds r → NumeralEnds s → chars x ++ r = chars y ++ s → x = y ∧ r = s

theorem quote_append_inj {a b : String} (same : quote a ++ r = quote b ++ s) : a = b ∧ r = s := by
  rw [Reader.quote_append, Reader.quote_append] at same
  have read := congrArg Reader.string (List.cons.inj same).2
  rw [Reader.string_written, Reader.string_written] at read
  cases read
  exact ⟨rfl, rfl⟩

/-- Further elements, each after a comma on a new line. -/
def following (chars : α → List Char) (depth : Nat) (xs : List α) : List Char :=
  xs.flatMap fun x => ',' :: newLine depth ++ chars x

def block (chars : α → List Char) (first last : Char) (depth : Nat) : List α → List Char
  | [] => [first, last]
  | x :: xs =>
      first :: newLine (depth + 1) ++ chars x ++ following chars (depth + 1) xs ++ newLine depth ++ [last]

section Block

variable {good : α → Prop} {chars : α → List Char} {xs ys : List α}

theorem numeralEnds_following (rest : List Char) :
    NumeralEnds (following chars depth xs ++ '\n' :: rest) := by
  cases xs with
  | nil => exact numeralEnds_cons rfl
  | cons x xs => exact numeralEnds_cons rfl

theorem following_append_inj (cuts : ∀ x ∈ xs, Cuts good chars x) (fine : ∀ y ∈ ys, good y)
    (same : following chars depth xs ++ '\n' :: r = following chars depth ys ++ '\n' :: s) :
    xs = ys ∧ r = s := by
  induction xs generalizing ys with
  | nil =>
      cases ys with
      | nil => exact ⟨rfl, (List.cons.inj same).2⟩
      | cons y ys => exact absurd (List.cons.inj same).1 (by decide)
  | cons x xs ih =>
      cases ys with
      | nil => exact absurd (List.cons.inj same).1 (by decide)
      | cons y ys =>
          simp only [following, List.flatMap_cons, List.cons_append, List.append_assoc, List.cons.injEq,
            true_and, List.append_cancel_left_eq] at same
          obtain ⟨head, rest⟩ := cuts x List.mem_cons_self (fine y List.mem_cons_self)
            (numeralEnds_following r) (numeralEnds_following s) same
          obtain ⟨tail, after⟩ := ih (fun x member => cuts x (List.mem_cons_of_mem _ member))
            (fun y member => fine y (List.mem_cons_of_mem _ member)) rest
          exact ⟨by rw [head, tail], after⟩

theorem block_append_inj {first last : Char} (visible : last ≠ '\n') (cuts : ∀ x ∈ xs, Cuts good chars x)
    (fine : ∀ y ∈ ys, good y) (same : block chars first last depth xs ++ r = block chars first last depth ys ++ s) :
    xs = ys ∧ r = s := by
  cases xs with
  | nil =>
      cases ys with
      | nil => exact ⟨rfl, List.append_cancel_left same⟩
      | cons y ys => exact absurd (List.cons.inj (List.cons.inj same).2).1 visible
  | cons x xs =>
      cases ys with
      | nil => exact absurd (List.cons.inj (List.cons.inj same).2).1 (Ne.symm visible)
      | cons y ys =>
          simp only [block, List.cons_append, List.append_assoc, List.cons.injEq, true_and,
            List.append_cancel_left_eq] at same
          obtain ⟨head, rest⟩ := cuts x List.mem_cons_self (fine y List.mem_cons_self)
            (numeralEnds_following _) (numeralEnds_following _) same
          obtain ⟨tail, after⟩ := following_append_inj (fun x member => cuts x (List.mem_cons_of_mem _ member))
            (fun y member => fine y (List.mem_cons_of_mem _ member)) rest
          exact ⟨by rw [head, tail], (List.cons.inj (List.append_cancel_left after)).2⟩

end Block

/-! ## Values -/

def prettyMember (depth : Nat) (m : String × Json) : List Char :=
  quote m.1 ++ ':' :: ' ' :: prettyChars depth m.2

theorem prettyItems_eq (depth : Nat) (items : List Json) :
    prettyItems depth items = following (prettyChars depth) depth items := by
  induction items with
  | nil => rfl
  | cons item rest ih =>
      rw [prettyItems, ih]
      rfl

theorem prettyMembers_eq (depth : Nat) (members : List (String × Json)) :
    prettyMembers depth members = following (prettyMember depth) depth members := by
  induction members with
  | nil => rfl
  | cons m rest ih =>
      rw [prettyMembers, ih]
      simp [following, prettyMember]

theorem prettyChars_list (depth : Nat) (items : List Json) :
    prettyChars depth (.list items) = block (prettyChars (depth + 1)) '[' ']' depth items := by
  cases items with
  | nil => rfl
  | cons item rest =>
      rw [prettyChars, prettyItems_eq]
      rfl

theorem prettyChars_object (depth : Nat) (members : List (String × Json)) :
    prettyChars depth (.object members) = block (prettyMember (depth + 1)) '\x7b' '\x7d' depth members := by
  cases members with
  | nil => rfl
  | cons m rest =>
      obtain ⟨name, value⟩ := m
      rw [prettyChars, prettyMembers_eq]
      simp [block, prettyMember]

theorem cuts_member {m : String × Json} (cuts : Cuts Whole (prettyChars depth) m.2) :
    Cuts (fun m : String × Json => Whole m.2) (prettyMember depth) m := by
  intro other r s fine hr hs same
  simp only [prettyMember, List.append_assoc] at same
  obtain ⟨name, rest⟩ := quote_append_inj same
  obtain ⟨value, after⟩ := cuts fine hr hs (List.cons.inj (List.cons.inj rest).2).2
  exact ⟨Prod.ext name value, after⟩

/-- A value with whole numbers can be told from any text that it begins. -/
theorem Whole.cuts (hv : Whole v) (depth : Nat) : Cuts Whole (prettyChars depth) v := by
  induction hv generalizing depth with
  | null =>
      intro w r s hw _ _ same
      have kind := Whole.null.kind_eq hw same
      cases hw with
      | null => exact ⟨rfl, List.append_cancel_left same⟩
      | _ => exact nomatch kind
  | bool b =>
      intro w r s hw _ _ same
      have kind := (Whole.bool b).kind_eq hw same
      cases hw with
      | bool c =>
          cases b <;> cases c
          · exact ⟨rfl, List.append_cancel_left same⟩
          · exact absurd (List.cons.inj same).1 (by decide)
          · exact absurd (List.cons.inj same).1 (by decide)
          · exact ⟨rfl, List.append_cancel_left same⟩
      | _ => exact nomatch kind
  | integer n =>
      intro w r s hw hr hs same
      have kind := (Whole.integer n).kind_eq hw same
      cases hw with
      | integer m =>
          obtain ⟨number, after⟩ := int_append_inj hr hs same
          exact ⟨by rw [number], after⟩
      | _ => exact nomatch kind
  | text a =>
      intro w r s hw _ _ same
      have kind := (Whole.text a).kind_eq hw same
      cases hw with
      | text b =>
          obtain ⟨text, after⟩ := quote_append_inj same
          exact ⟨by rw [text], after⟩
      | _ => exact nomatch kind
  | list each ih =>
      intro w r s hw _ _ same
      have kind := (Whole.list each).kind_eq hw same
      cases hw with
      | list fine =>
          rw [prettyChars_list, prettyChars_list] at same
          obtain ⟨items, after⟩ := block_append_inj (by decide) (fun item member => ih item member _) fine same
          exact ⟨by rw [items], after⟩
      | _ => exact nomatch kind
  | object each ih =>
      intro w r s hw _ _ same
      have kind := (Whole.object each).kind_eq hw same
      cases hw with
      | object fine =>
          rw [prettyChars_object, prettyChars_object] at same
          obtain ⟨members, after⟩ :=
            block_append_inj (by decide) (fun m member => cuts_member (ih m member _)) fine same
          exact ⟨by rw [members], after⟩
      | _ => exact nomatch kind

/-- Values with whole numbers are known from their pretty forms. -/
theorem pretty_inj (hv : Whole v) (hw : Whole w) : v.pretty = w.pretty ↔ v = w := by
  constructor
  · intro same
    have chars : prettyChars 0 v ++ [] = prettyChars 0 w ++ [] := by
      rw [String.ofList_injective same]
    exact (hv.cuts 0 hw numeralEnds_nil numeralEnds_nil chars).1
  · intro same
    rw [same]

end WordWalk.Json
