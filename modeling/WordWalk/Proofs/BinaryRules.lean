import Mathlib.Data.List.Forall2
import WordWalk.Index.NormalForm

/-! # What rules in normal form derive

`Derives` reads the three kinds of rules as a grammar over numbers. `Holds` says of a body
with any number of symbols that the rules amount to it: longer bodies are spelled out by
a chain of pairs in which a terminal is replaced by a number that derives it.
-/

namespace WordWalk

namespace NormalForm

/-- What a number derives by the rules. -/
inductive Derives (form : NormalForm) : Nat → List String → Prop
  | lexical {label head} (rule : ⟨label, head⟩ ∈ form.lexicals) : Derives form head [label]
  | unit {parent child word} (rule : ⟨parent, child⟩ ∈ form.units) (below : Derives form child word) :
      Derives form parent word
  | pair {left right head first second} (rule : ⟨left, right, head⟩ ∈ form.pairs)
      (front : Derives form left first) (back : Derives form right second) :
      Derives form head (first ++ second)

theorem Derives.ne_nil {form : NormalForm} {id word} (h : form.Derives id word) : word ≠ [] := by
  induction h with
  | lexical => exact List.cons_ne_nil _ _
  | unit _ _ ih => exact ih
  | pair _ _ _ ih _ => exact List.append_ne_nil_of_left_ne_nil ih _

/-- What a symbol derives: a terminal only itself. -/
def DerivesAtom (form : NormalForm) : Atom → List String → Prop
  | .terminal label, word => word = [label]
  | .nonterminal id, word => form.Derives id word

/-- The word consists of what the symbols derive, in their order. -/
def Spells (form : NormalForm) : List Atom → List String → Prop
  | [], word => word = []
  | atom :: rest, word =>
      ∃ first second, word = first ++ second ∧ form.DerivesAtom atom first ∧ form.Spells rest second

/-- The number may take the place of the symbol in a pair. -/
def Stands (form : NormalForm) : Atom → Nat → Prop
  | .terminal label, id => ⟨label, id⟩ ∈ form.lexicals
  | .nonterminal child, id => id = child

/-- Pairs lead from the head to the numbers, each pair but the last by way of a tail. -/
def Chained (form : NormalForm) (head : Nat) : List Nat → Prop
  | [] | [_] => False
  | [left, right] => ⟨left, right, head⟩ ∈ form.pairs
  | left :: rest => ∃ tail, ⟨left, tail, head⟩ ∈ form.pairs ∧ form.Chained tail rest

/-- The rules let the head derive what the body spells. -/
def Holds (form : NormalForm) (head : Nat) : List Atom → Prop
  | [] => False
  | [.terminal label] => ⟨label, head⟩ ∈ form.lexicals
  | [.nonterminal child] => ⟨head, child⟩ ∈ form.units
  | body => ∃ ids, List.Forall₂ form.Stands body ids ∧ form.Chained head ids

theorem DerivesAtom.of_stands {form : NormalForm} {atom id word} (stands : form.Stands atom id)
    (h : form.DerivesAtom atom word) : form.Derives id word := by
  cases atom with
  | terminal label =>
      rw [show word = [label] from h]
      exact .lexical stands
  | nonterminal child =>
      rw [show id = child from stands]
      exact h

theorem Spells.of_chained {form : NormalForm} {head ids body word}
    (stands : List.Forall₂ form.Stands body ids) (chained : form.Chained head ids)
    (h : form.Spells body word) : form.Derives head word := by
  induction stands generalizing head word with
  | nil => exact absurd chained (by simp [Chained])
  | @cons atom left body rest first later ih =>
      obtain ⟨u, v, rfl, hu, hv⟩ := h
      have front : form.Derives left u := hu.of_stands first
      match rest, later with
      | [], _ => exact absurd chained (by simp [Chained])
      | [right], later =>
          cases later with
          | cons second none =>
              cases none
              obtain ⟨v, w, rfl, hv, rfl⟩ := hv
              rw [List.append_nil]
              exact .pair chained front (hv.of_stands second)
      | right :: next :: rest, _ =>
          obtain ⟨tail, rule, chained⟩ := chained
          exact .pair rule front (ih chained hv)

theorem Spells.derives {form : NormalForm} {head body word} (holds : form.Holds head body)
    (h : form.Spells body word) : form.Derives head word := by
  match body, holds with
  | [.terminal label], rule =>
      obtain ⟨u, v, rfl, hu, rfl⟩ := h
      rw [show u = [label] from hu, List.append_nil]
      exact .lexical rule
  | [.nonterminal child], rule =>
      obtain ⟨u, v, rfl, hu, rfl⟩ := h
      rw [List.append_nil]
      exact .unit rule hu
  | _ :: _ :: _, holds =>
      simp only [Holds] at holds
      obtain ⟨ids, stands, chained⟩ := holds
      exact h.of_chained stands chained

/-- The second form has all the rules and numbers of the first, each number under its name. -/
structure Extends (before after : NormalForm) : Prop where
  names : before.names.toList <+: after.names.toList
  userCount : after.userCount = before.userCount
  lexicals : before.lexicals ⊆ after.lexicals
  pairs : before.pairs ⊆ after.pairs
  units : before.units ⊆ after.units

namespace Extends

variable {a b c : NormalForm}

theorem refl (form : NormalForm) : form.Extends form :=
  ⟨List.prefix_rfl, rfl, fun _ => id, fun _ => id, fun _ => id⟩

theorem trans (h : a.Extends b) (k : b.Extends c) : a.Extends c :=
  ⟨h.names.trans k.names, k.userCount.trans h.userCount,
    fun _ member => k.lexicals (h.lexicals member), fun _ member => k.pairs (h.pairs member),
    fun _ member => k.units (h.units member)⟩

theorem size_le (h : a.Extends b) : a.names.size ≤ b.names.size := h.names.length_le

theorem stands (h : a.Extends b) {atom id} (stands : a.Stands atom id) : b.Stands atom id := by
  cases atom with
  | terminal => exact h.lexicals stands
  | nonterminal => exact stands

theorem chained (h : a.Extends b) {head ids} (chained : a.Chained head ids) : b.Chained head ids := by
  induction ids generalizing head with
  | nil => exact chained
  | cons left rest ih =>
      match rest, chained with
      | [right], rule => exact h.pairs rule
      | _ :: _ :: _, ⟨tail, rule, chained⟩ => exact ⟨tail, h.pairs rule, ih chained⟩

theorem holds (h : a.Extends b) {head body} (holds : a.Holds head body) : b.Holds head body := by
  match body, holds with
  | [.terminal _], rule => exact h.lexicals rule
  | [.nonterminal _], rule => exact h.units rule
  | _ :: _ :: _, holds =>
      simp only [Holds] at holds ⊢
      obtain ⟨ids, stands, chained⟩ := holds
      exact ⟨ids, stands.imp fun _ _ => h.stands, h.chained chained⟩

end Extends

end NormalForm

end WordWalk
