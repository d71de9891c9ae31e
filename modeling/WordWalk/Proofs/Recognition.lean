import WordWalk.Proofs.Chart
import WordWalk.Proofs.Language

/-! # Recognition decides the language of the grammar

An index accepts a word exactly when the grammar it was built from derives the word from
the start symbol. The normal form, the closures of the tables and the chart each keep
the derivable words, so their composition does.
-/

namespace WordWalk

namespace Index

theorem build_ok {policy : Policy} {g : Grammar} {index : Index} (built : build policy g = .ok index) :
    startSymbol ∈ g ∧ (∀ p ∈ g.listing, p.body ≠ []) ∧ index = ofGrammar g := by
  unfold build at built
  split at built
  · cases built
  · rename_i faultless
    cases built
    unfold Grammar.fault? at faultless
    split at faultless
    · rename_i start
      refine ⟨start, fun p listed empty => ?_, rfl⟩
      have sound := List.findSome?_eq_none_iff.mp faultless p listed
      simp [Production.fault?, empty] at sound
    · cases faultless

theorem build_of_faultless {policy : Policy} {g : Grammar} (faultless : g.fault? policy = none) :
    build policy g = .ok (ofGrammar g) := by
  rw [build, faultless]

end Index

theorem NormalForm.Faithful.bounded {g : Grammar} {form : NormalForm} {of : Nat → List String}
    (h : Faithful g form of) : form.Bounded :=
  ⟨fun r member => (h.lexical r member).1, fun r member => (h.pair r member).1⟩

/-- The words accepted are the words without nonterminals that the start symbol derives by the
    rules of the grammar as it was given. -/
theorem Index.accepts_iff_grammar_derives {policy : Policy} {g : Grammar} {index : Index}
    (built : Index.build policy g = .ok index) (word : List String) :
    index.accepts word = true ↔
      word ≠ [] ∧ (∀ label ∈ word, label ∉ g) ∧ g.Derives [startSymbol] word := by
  obtain ⟨start, nonempty, rfl⟩ := build_ok built
  obtain ⟨of, faithful, _⟩ := NormalForm.ofGrammar_faithful g
  have tables : (ofGrammar g).accepts word = true ↔
      (NormalForm.ofGrammar g).Derives (g.nonterminals.idxOf startSymbol) word :=
    accepts_iff_derives.trans (derives_iff faithful.bounded)
  rw [tables]
  constructor
  · intro h
    obtain ⟨derives, terminals⟩ := (NormalForm.derives_iff nonempty start).mp h
    exact ⟨h.ne_nil, terminals, derives⟩
  · rintro ⟨_, terminals, derives⟩
    exact (NormalForm.derives_iff nonempty start).mpr ⟨derives, terminals⟩

/-- Nested brackets, with a cycle of unit rules and with names that helpers have as well. -/
def Grammar.nested : Grammar :=
  ((((((∅ : Grammar).addRule "S" ["<a>", "b"]).addRule "S" ["A"]).addRule "A" ["S"]).addRule "A"
    ["a", "S", "b"]).addRule "<a>" ["a"]).addNonterminal "S#3"

theorem nested_words : ∃ index, Index.build .normalize .nested = .ok index ∧
    Grammar.nested.Derives ["S"] ["a", "a", "b", "b"] ∧
    ¬ Grammar.nested.Derives ["S"] ["a", "a", "b"] := by
  have built : Index.build .normalize .nested = .ok (.ofGrammar .nested) := by
    have faultless : Grammar.nested.fault? .normalize = none := by decide +kernel
    rw [Index.build, faultless]
  have balanced : (Index.ofGrammar .nested).accepts ["a", "a", "b", "b"] = true := by decide +kernel
  have unbalanced : (Index.ofGrammar .nested).accepts ["a", "a", "b"] ≠ true := by decide +kernel
  have terminals : ∀ label ∈ ["a", "a", "b"], label ∉ Grammar.nested := by decide +kernel
  refine ⟨_, built, ?_, fun derives => unbalanced ?_⟩
  · exact ((Index.accepts_iff_grammar_derives built _).mp balanced).2.2
  · exact (Index.accepts_iff_grammar_derives built _).mpr ⟨List.cons_ne_nil _ _, terminals, derives⟩

end WordWalk
