import Mathlib.Logic.Relation
import WordWalk.Grammar

/-! # Derivations

A derivation rewrites a sentence of names one nonterminal at a time. A derivation that ends
in a word without nonterminals can be ordered by subject instead: every name of the
sentence is expanded on its own, from left to right, and the results are joined.
-/

namespace WordWalk.Grammar

def HasRule (g : Grammar) (name : String) (body : Rule) : Prop :=
  ∃ rules, g.rulesFor? name = some rules ∧ body ∈ rules

/-- One nonterminal of a sentence is replaced by the body of one of its rules. -/
inductive Step (g : Grammar) : List String → List String → Prop
  | replace {name body} (before after : List String) (rule : g.HasRule name body) :
      Step g (before ++ name :: after) (before ++ body ++ after)

/-- Zero or more steps lead from one sentence to the other. -/
def Derives (g : Grammar) : List String → List String → Prop := Relation.ReflTransGen g.Step

theorem HasRule.mem {g : Grammar} {name body} (h : g.HasRule name body) : name ∈ g := by
  obtain ⟨rules, found, _⟩ := h
  exact Std.ExtTreeMap.mem_iff_isSome_getElem?.mpr (Option.isSome_of_eq_some found)

/-- The listing holds every rule of every nonterminal at its place, and nothing else. -/
theorem mem_listing {g : Grammar} {p : Production} :
    p ∈ g.listing ↔ ∃ rules, g.rulesFor? p.nonterminal = some rules ∧ rules[p.index]? = some p.body := by
  simp only [listing, toList, List.mem_flatMap, List.mem_map, Prod.exists,
    Std.ExtTreeMap.mem_toList_iff_getElem?_eq_some, List.mem_zipIdx_iff_getElem?]
  constructor
  · rintro ⟨name, rules, found, body, index, placed, rfl⟩
    exact ⟨rules, found, placed⟩
  · rintro ⟨rules, found, placed⟩
    exact ⟨p.nonterminal, rules, found, p.body, p.index, placed, rfl⟩

theorem hasRule_iff_listed {g : Grammar} {name body} :
    g.HasRule name body ↔ ∃ p ∈ g.listing, p.nonterminal = name ∧ p.body = body := by
  constructor
  · rintro ⟨rules, found, member⟩
    obtain ⟨index, placed⟩ := List.mem_iff_getElem?.mp member
    exact ⟨⟨name, index, body⟩, mem_listing.mpr ⟨rules, found, placed⟩, rfl, rfl⟩
  · rintro ⟨p, listed, rfl, rfl⟩
    obtain ⟨rules, found, placed⟩ := mem_listing.mp listed
    exact ⟨rules, found, List.mem_of_getElem? placed⟩

theorem mem_of_listed {g : Grammar} {p : Production} (listed : p ∈ g.listing) : p.nonterminal ∈ g :=
  (hasRule_iff_listed.mpr ⟨p, listed, rfl, rfl⟩).mem

namespace Derives

variable {g : Grammar}

theorem of_rule {name body} (h : g.HasRule name body) : g.Derives [name] body := by
  have step : g.Step [name] body := by simpa using Step.replace [] [] h
  exact .single step

theorem frame {s t : List String} (h : g.Derives s t) (before after : List String) :
    g.Derives (before ++ s ++ after) (before ++ t ++ after) := by
  induction h with
  | refl => exact .refl
  | tail _ last ih =>
      cases last with
      | replace front back rule =>
          refine ih.tail ?_
          simpa only [List.append_assoc, List.cons_append] using
            Step.replace (before ++ front) (back ++ after) rule

theorem append {s s' t t' : List String} (hs : g.Derives s s') (ht : g.Derives t t') :
    g.Derives (s ++ t) (s' ++ t') := by
  have first : g.Derives (s ++ t) (s' ++ t) := by simpa using hs.frame [] t
  have second : g.Derives (s' ++ t) (s' ++ t') := by simpa using ht.frame s' []
  exact first.trans second

end Derives

/-- A sentence is expanded, name by name, into a word without nonterminals. -/
inductive Expands (g : Grammar) : List String → List String → Prop
  | done : Expands g [] []
  | keep {name rest word} (terminal : name ∉ g) (later : Expands g rest word) :
      Expands g (name :: rest) (name :: word)
  | rule {name body rest first second} (rule : g.HasRule name body) (now : Expands g body first)
      (later : Expands g rest second) : Expands g (name :: rest) (first ++ second)

namespace Expands

variable {g : Grammar}

theorem append {s t u v : List String} (hs : g.Expands s u) (ht : g.Expands t v) :
    g.Expands (s ++ t) (u ++ v) := by
  induction hs with
  | done => exact ht
  | keep terminal _ ih => exact .keep terminal ih
  | rule rule now _ _ ih =>
      rw [List.append_assoc]
      exact .rule rule now ih

theorem split {s t w : List String} (h : g.Expands (s ++ t) w) :
    ∃ u v, w = u ++ v ∧ g.Expands s u ∧ g.Expands t v := by
  induction s generalizing w with
  | nil => exact ⟨[], w, rfl, .done, h⟩
  | cons name s ih =>
      cases h with
      | keep terminal later =>
          obtain ⟨u, v, rfl, hs, ht⟩ := ih later
          exact ⟨name :: u, v, rfl, .keep terminal hs, ht⟩
      | rule rule now later =>
          obtain ⟨u, v, rfl, hs, ht⟩ := ih later
          exact ⟨_ ++ u, v, (List.append_assoc ..).symm, .rule rule now hs, ht⟩

theorem of_terminals {w : List String} (h : ∀ name ∈ w, name ∉ g) : g.Expands w w := by
  induction w with
  | nil => exact .done
  | cons name w ih =>
      exact .keep (h name List.mem_cons_self) (ih fun other hw => h other (List.mem_cons_of_mem _ hw))

/-- Undoing one step of a derivation puts the replaced name in front of its expansion. -/
theorem of_step {s t w : List String} (step : g.Step s t) (h : g.Expands t w) : g.Expands s w := by
  cases step with
  | replace before after rule =>
      obtain ⟨u, v, rfl, hu, hv⟩ := h.split
      obtain ⟨u₁, u₂, rfl, hbefore, hbody⟩ := hu.split
      rw [List.append_assoc]
      exact hbefore.append (.rule rule hbody hv)

end Expands

theorem Derives.expands {g : Grammar} {s w : List String} (h : g.Derives s w)
    (terminals : ∀ name ∈ w, name ∉ g) : g.Expands s w := by
  induction h using Relation.ReflTransGen.head_induction_on with
  | refl => exact .of_terminals terminals
  | head step _ ih => exact .of_step step ih

end WordWalk.Grammar
