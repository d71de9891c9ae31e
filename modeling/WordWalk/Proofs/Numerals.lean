import Std.Data.String.ToNat

/-! # Written numbers

The numeral of a number is made of digits, after a minus sign if the number is negative. Where no
further digit follows, number and rest of the text are known from the text.
-/

namespace WordWalk

variable {digits others rest more : List Char}

theorem isDigit_of_mem_text {n : Nat} {c : Char} (member : c ∈ (toString n).toList) : c.isDigit = true := by
  rw [Nat.toString_eq_repr, Nat.toList_repr] at member
  exact Nat.isDigit_of_mem_toDigits (by decide) (by decide) member

theorem number_text_ne_nil (n : Nat) : (toString n).toList ≠ [] := by
  rw [Nat.toString_eq_repr, Nat.toList_repr]
  exact Nat.toDigits_ne_nil

theorem number_text_inj {n m : Nat} : toString n = toString m ↔ n = m := by
  rw [Nat.toString_eq_repr, Nat.toString_eq_repr, Nat.repr_inj]

def NumeralEnds (rest : List Char) : Prop := ∀ c ∈ rest.head?, c.isDigit = false

theorem numeralEnds_nil : NumeralEnds [] := by
  intro c next
  cases next

theorem numeralEnds_cons {c : Char} (other : c.isDigit = false) : NumeralEnds (c :: rest) := by
  intro d next
  cases next
  exact other

theorem takeWhile_digits (all : ∀ c ∈ digits, c.isDigit = true) (ends : NumeralEnds rest) :
    (digits ++ rest).takeWhile Char.isDigit = digits := by
  rw [List.takeWhile_append_of_pos all]
  cases rest with
  | nil => exact List.append_nil _
  | cons c rest =>
      have other : c.isDigit = false := ends c rfl
      rw [List.takeWhile_cons_of_neg (by rw [other]; exact Bool.false_ne_true), List.append_nil]

theorem nat_append_inj {n m : Nat} (hr : NumeralEnds rest) (hm : NumeralEnds more)
    (same : (toString n).toList ++ rest = (toString m).toList ++ more) : n = m ∧ rest = more := by
  have digits := congrArg (List.takeWhile Char.isDigit) same
  rw [takeWhile_digits (fun _ => isDigit_of_mem_text) hr, takeWhile_digits (fun _ => isDigit_of_mem_text) hm]
    at digits
  rw [digits] at same
  exact ⟨number_text_inj.mp (String.toList_inj.mp digits), List.append_cancel_left same⟩

theorem nat_ne_minus {n : Nat} : (toString n).toList ++ rest ≠ '-' :: more := by
  intro same
  cases digits : (toString n).toList with
  | nil => exact number_text_ne_nil n digits
  | cons c cs =>
      rw [digits] at same
      have digit : c.isDigit = true := isDigit_of_mem_text (digits ▸ List.mem_cons_self)
      rw [(List.cons.inj same).1] at digit
      cases digit

theorem toList_negative (n : Nat) : (toString (Int.negSucc n)).toList = '-' :: (toString (n + 1)).toList :=
  String.toList_append

theorem int_append_inj {n m : Int} (hr : NumeralEnds rest) (hm : NumeralEnds more)
    (same : (toString n).toList ++ rest = (toString m).toList ++ more) : n = m ∧ rest = more := by
  cases n with
  | ofNat n =>
      cases m with
      | ofNat m =>
          obtain ⟨number, after⟩ := nat_append_inj (n := n) (m := m) hr hm same
          exact ⟨congrArg Int.ofNat number, after⟩
      | negSucc m =>
          rw [toList_negative] at same
          exact absurd same nat_ne_minus
  | negSucc n =>
      rw [toList_negative] at same
      cases m with
      | ofNat m => exact absurd same.symm nat_ne_minus
      | negSucc m =>
          rw [toList_negative] at same
          obtain ⟨number, after⟩ := nat_append_inj hr hm (List.cons.inj same).2
          exact ⟨congrArg Int.negSucc (Nat.succ.inj number), after⟩

end WordWalk
