import WordWalk.Proofs.BuildFaults

/-! # The strict policy

A grammar that the strict policy admits has nothing to normalize: no rule is broken up, so there
are no helpers, and there are no unit rules. The two policies then give the same index.
Conversely every rule that is broken up leaves a helper behind, be it a proxy it shares with
other rules, so an index without helpers shows that all rules were in normal form.
-/

namespace WordWalk

/-- A rule that is not in normal form is empty, or its body is one nonterminal, or it is broken up. -/
theorem Production.regular_iff {g : Grammar} {p : Production} :
    g.Regular p.body ↔ p.body ≠ [] ∧ (∀ child ∈ g, p.body ≠ [child]) ∧ ¬ p.Splits g := by
  unfold Splits
  match p.body with
  | [] => simpa using fun regular : g.Regular [] => nomatch regular
  | [a] =>
      rw [Grammar.regular_single]
      constructor
      · intro outside
        refine ⟨by simp, fun child inside same => ?_, by simp⟩
        rw [List.singleton_inj.mp same] at outside
        exact outside inside
      · rintro ⟨_, other, _⟩ inside
        exact other a inside rfl
  | [a, b] =>
      rw [Grammar.regular_pair]
      simp
  | a :: b :: c :: rest =>
      refine iff_of_false (fun regular => ?_) (by simp)
      have few := regular.length_le
      simp only [List.length_cons] at few
      omega

namespace NormalForm

theorem Splits.cases {body : List Atom} (h : Splits body) :
    (∃ label, .terminal label ∈ body) ∨ 2 < body.length := by
  match body, h with
  | [.terminal label, _], _ => exact .inl ⟨label, by simp⟩
  | [.nonterminal _, .terminal label], _ => exact .inl ⟨label, by simp⟩
  | _ :: _ :: _ :: _, _ => exact .inr (by simp)

theorem splits_of_long {body : List Atom} (long : 2 < body.length) : Splits body := by
  match body, long with
  | _ :: _ :: _ :: _, _ => simp [Splits]

/-- There are helpers exactly if some body is broken up. -/
theorem Ledger.exists_helper_iff {shares : List Share} {form : NormalForm} (h : Ledger shares form) :
    (∃ id, form.userCount ≤ id ∧ id < form.names.size) ↔ ∃ s ∈ shares, Splits s.body := by
  simp only [← h.mem_helpers]
  constructor
  · rintro ⟨id, helper⟩
    rcases List.mem_append.mp helper with proxy | tail
    · obtain ⟨⟨label, _⟩, member, rfl⟩ := List.mem_map.mp proxy
      obtain ⟨s, inside, splits, _⟩ := (h.labels label).mp (List.mem_map_of_mem member)
      exact ⟨s, inside, splits⟩
    · obtain ⟨s, inside, owned⟩ := List.mem_flatMap.mp tail
      have count := (h.fair s inside).count
      have some := List.length_pos_of_mem owned
      exact ⟨s, inside, splits_of_long (by omega)⟩
  · rintro ⟨s, inside, splits⟩
    rcases splits.cases with ⟨label, terminal⟩ | long
    · -- the proxy may be there already because of an earlier rule
      obtain ⟨p, member, _⟩ := List.mem_map.mp ((h.labels label).mpr ⟨s, inside, splits, terminal⟩)
      exact ⟨p.2, List.mem_append_left _ (List.mem_map_of_mem member)⟩
    · have count := (h.fair s inside).count
      obtain ⟨tail, owned⟩ := List.exists_mem_of_length_pos (l := s.tails) (by omega)
      exact ⟨tail, List.mem_append_right _ (List.mem_flatMap.mpr ⟨s, inside, owned⟩)⟩

end NormalForm

namespace Index

variable {g : Grammar}

theorem no_helper_iff : (∀ id, (ofGrammar g).isHelper id = false) ↔ ∀ p ∈ g.listing, ¬ p.Splits g := by
  obtain ⟨owned, rules, belongs, ledger⟩ := NormalForm.ofGrammar_ledger g
  have helpers : (∃ id, (ofGrammar g).isHelper id = true) ↔ ∃ p ∈ g.listing, p.Splits g := by
    simp only [isHelper_iff, ← NormalForm.splits_atoms (g := g)]
    rw [← exists_share rules belongs fun _ body => NormalForm.Splits body]
    exact ledger.exists_helper_iff
  simpa only [not_exists, not_and, Bool.not_eq_true] using not_congr helpers

/-- Without unit rules the closure of a number is the number alone. -/
theorem closure_alone (plain : ∀ parent child, ¬ g.UnitRule parent child) {id : Nat}
    (inside : id < (ofGrammar g).nonterminalCount) :
    ∃ closure, (ofGrammar g).unitClosure? id = some closure ∧ ∀ parent, parent ∈ closure ↔ parent = id := by
  refine ⟨_, unitClosure?_ofGrammar inside, fun parent => ?_⟩
  have none : (NormalForm.ofGrammar g).parents id = [] := by
    refine List.eq_nil_iff_forall_not_mem.mpr fun parent member => ?_
    obtain ⟨p, c, rule, _⟩ := NormalForm.mem_parents_ofGrammar.mp member
    exact plain p c rule
  rw [NormalForm.mem_ancestors, Saturation.leads_iff_eq none]

theorem admits_iff {policy : Policy} {index : Index} (built : build policy g = .ok index) :
    (∃ strict, build .strict g = .ok strict) ↔ ∀ p ∈ g.listing, g.Regular p.body := by
  obtain ⟨start, _, _⟩ := build_eq_ok.mp built
  simp only [build_eq_ok, start, true_and, exists_and_left, exists_eq, and_true]
  refine forall₂_congr fun p _ => ?_
  constructor
  · exact fun fine => not_not.mp fun irregular => fine (.inr ⟨rfl, irregular⟩)
  · rintro regular (none | ⟨_, irregular⟩)
    · exact (Production.regular_iff.mp regular).1 none
    · exact irregular regular

/-- A grammar without empty rules has its rules in normal form if there is nothing to normalize. -/
theorem regular_iff_plain (nonempty : ∀ p ∈ g.listing, p.body ≠ []) :
    (∀ p ∈ g.listing, g.Regular p.body) ↔
      (∀ parent child, ¬ g.UnitRule parent child) ∧ ∀ id, (ofGrammar g).isHelper id = false := by
  have units : (∀ parent child, ¬ g.UnitRule parent child) ↔
      ∀ p ∈ g.listing, ∀ child ∈ g, p.body ≠ [child] := by
    constructor
    · intro none p listed child inside same
      exact none p.nonterminal child ⟨inside, Grammar.hasRule_iff_listed.mpr ⟨p, listed, rfl, same⟩⟩
    · rintro none parent child ⟨inside, rule⟩
      obtain ⟨p, listed, _, same⟩ := Grammar.hasRule_iff_listed.mp rule
      exact none p listed child inside same
  rw [units, no_helper_iff, ← forall₂_and]
  refine forall₂_congr fun p listed => ?_
  rw [Production.regular_iff, and_iff_right (nonempty p listed)]

/-- What the strict policy admits has the same index under both policies, without helpers and with
    nothing in a closure but the number itself. What can be normalized is admitted by the
    strict policy exactly if it has no unit rules and its index has no helpers. -/
theorem strict_restricts (g : Grammar) :
    (∀ index, build .strict g = .ok index →
      build .normalize g = .ok index ∧ Checked.build .normalize g = .ok index ∧
      (∀ id, index.isHelper id = false) ∧
      ∀ id < index.nonterminalCount, ∃ closure, index.unitClosure? id = some closure ∧
        ∀ parent, parent ∈ closure ↔ parent = id) ∧
    (∀ index, build .normalize g = .ok index →
      ((∃ strict, build .strict g = .ok strict) ↔
        (∀ parent child, ¬ g.UnitRule parent child) ∧ ∀ id, index.isHelper id = false)) := by
  constructor
  · intro index built
    obtain ⟨start, nonempty, rfl⟩ := build_ok built
    have normal : build .normalize g = .ok (ofGrammar g) := by
      refine build_eq_ok.mpr ⟨start, fun p listed => ?_, rfl⟩
      simpa [Grammar.Refuses] using nonempty p listed
    obtain ⟨plain, alone⟩ := (regular_iff_plain nonempty).mp ((admits_iff built).mp ⟨_, built⟩)
    refine ⟨normal, ?_, alone, fun id inside => closure_alone plain inside⟩
    rw [Checked.build_eq, normal]
    rfl
  · intro index built
    obtain ⟨_, nonempty, rfl⟩ := build_ok built
    exact (admits_iff built).trans (regular_iff_plain nonempty)

end Index

/-- Nested brackets with nonterminals for the brackets. -/
def Grammar.regular : Grammar :=
  (((((∅ : Grammar).addRule "S" ["A", "T"]).addRule "T" ["S", "B"]).addRule "T" ["b"]).addRule "A"
    ["a"]).addRule "B" ["b"]

theorem strict_restricts_brackets :
    (∃ index, Index.build .strict .regular = .ok index ∧ Index.build .normalize .regular = .ok index ∧
      index.isHelper 4 = false) ∧
    (∃ index, Index.build .normalize .repeated = .ok index ∧ index.isHelper 4 = true ∧
      ¬ ∃ strict, Index.build .strict .repeated = .ok strict) := by
  have strict : Index.build .strict .regular = .ok (.ofGrammar .regular) :=
    Index.build_of_faultless (by decide +kernel)
  have normal : Index.build .normalize .repeated = .ok (.ofGrammar .repeated) :=
    Index.build_of_faultless (by decide +kernel)
  have helper : (Index.ofGrammar .repeated).isHelper 4 = true := by decide +kernel
  constructor
  · obtain ⟨same, _, alone, _⟩ := (Index.strict_restricts .regular).1 _ strict
    exact ⟨_, strict, same, alone 4⟩
  · refine ⟨_, normal, helper, fun admitted => ?_⟩
    have alone := (((Index.strict_restricts .repeated).2 _ normal).mp admitted).2 4
    exact absurd (helper.symm.trans alone) (by decide)

end WordWalk
