import WordWalk.Proofs.Normalization

/-! # The language of a normal form

A nonterminal derives the same words by the rules in normal form as in the grammar they
were made from. Every rule of the grammar is added in turn, and an expansion in the
grammar is followed name by name.
-/

namespace WordWalk

theorem Grammar.mem_nonterminals {g : Grammar} {name : String} : name ∈ g.nonterminals ↔ name ∈ g :=
  Std.ExtTreeMap.mem_keys

theorem Grammar.idxOf_lt {g : Grammar} {name : String} (member : name ∈ g) :
    g.nonterminals.idxOf name < g.nonterminals.length :=
  List.idxOf_lt_length_of_mem (mem_nonterminals.mpr member)

namespace NormalForm

variable {g : Grammar} {form : NormalForm} {of : Nat → List String}

theorem idxOf?_terminal {name : String} (terminal : name ∉ g) : g.nonterminals.idxOf? name = none :=
  List.idxOf?_eq_none_iff.mpr (Grammar.mem_nonterminals.not.mpr terminal)

theorem idxOf?_nonterminal {name : String} (member : name ∈ g) :
    g.nonterminals.idxOf? name = some (g.nonterminals.idxOf name) := by
  rw [List.idxOf?_eq_some_iff]
  have inside := Grammar.idxOf_lt member
  refine ⟨inside, List.getElem_idxOf inside, fun j before same => ?_⟩
  have earlier := List.not_of_lt_findIdx (p := (· == name)) before
  simp [same] at earlier

theorem atoms_cons_terminal {name : String} (terminal : name ∉ g) (rest : Rule) :
    atoms g.nonterminals (name :: rest) = .terminal name :: atoms g.nonterminals rest := by
  simp only [atoms, List.map_cons, idxOf?_terminal terminal]

theorem atoms_cons_nonterminal {name : String} (member : name ∈ g) (rest : Rule) :
    atoms g.nonterminals (name :: rest) =
      .nonterminal (g.nonterminals.idxOf name) :: atoms g.nonterminals rest := by
  simp only [atoms, List.map_cons, idxOf?_nonterminal member]

theorem atoms_fit (body : Rule) : ∀ atom ∈ atoms g.nonterminals body,
    atom.Fits g g.nonterminals.length := by
  induction body with
  | nil => simp [atoms]
  | cons name rest ih =>
      by_cases member : name ∈ g
      · rw [atoms_cons_nonterminal member]
        exact List.forall_mem_cons.mpr
          ⟨Grammar.idxOf_lt member, ih⟩
      · rw [atoms_cons_terminal member]
        exact List.forall_mem_cons.mpr ⟨member, ih⟩

theorem Faithful.number_lt (h : Faithful g form of) {name : String} (member : name ∈ g) :
    g.nonterminals.idxOf name < form.userCount :=
  h.userCount ▸ Grammar.idxOf_lt member

theorem Faithful.user_idxOf (h : Faithful g form of) {name : String} (member : name ∈ g) :
    of (g.nonterminals.idxOf name) = [name] := by
  have inside := Grammar.idxOf_lt member
  exact h.user (List.getElem?_eq_some_iff.mpr ⟨inside, List.getElem_idxOf inside⟩)

theorem Faithful.sentence_atoms (h : Faithful g form of) (body : Rule) :
    (atoms g.nonterminals body).flatMap (·.sentence of) = body := by
  induction body with
  | nil => rfl
  | cons name rest ih =>
      by_cases member : name ∈ g
      · rw [atoms_cons_nonterminal member, List.flatMap_cons, ih]
        exact congrArg (· ++ rest) (h.user_idxOf member)
      · rw [atoms_cons_terminal member, List.flatMap_cons, ih]
        rfl

theorem faithful_ofNames (g : Grammar) :
    Faithful g (ofNames g.nonterminals) fun id => (g.nonterminals[id]?).toList where
  users := List.prefix_rfl
  userCount := rfl
  user := fun found => by rw [found]; rfl
  lexical := by simp [ofNames]
  unit := by simp [ofNames]
  pair := by simp [ofNames]
  proxy := by simp [ofNames]

def addProduction (g : Grammar) (form : NormalForm) (p : Production) : NormalForm :=
  form.addRule (g.nonterminals.idxOf p.nonterminal) (atoms g.nonterminals p.body)

theorem Faithful.addProductions (h : Faithful g form of) {listed : List Production}
    (known : listed ⊆ g.listing) :
    ∃ of', Grown g form of (listed.foldl (addProduction g) form) of' ∧
      ∀ p ∈ listed, p.body ≠ [] → (listed.foldl (addProduction g) form).Holds
        (g.nonterminals.idxOf p.nonterminal) (atoms g.nonterminals p.body) := by
  induction listed generalizing form of with
  | nil => exact ⟨of, h.grown_refl, by simp⟩
  | cons p rest ih =>
      have rule : g.HasRule p.nonterminal p.body :=
        Grammar.hasRule_iff_listed.mpr ⟨p, known List.mem_cons_self, rfl, rfl⟩
      have inside : g.nonterminals.idxOf p.nonterminal < form.userCount := h.number_lt rule.mem
      have derives : g.Derives (of (g.nonterminals.idxOf p.nonterminal))
          ((atoms g.nonterminals p.body).flatMap (·.sentence of)) := by
        rw [h.user_idxOf rule.mem, h.sentence_atoms]
        exact .of_rule rule
      obtain ⟨of₁, first, held⟩ := h.addRule inside (h.userCount ▸ atoms_fit p.body) derives
      obtain ⟨of', second, all⟩ := ih first.faithful (List.subset_of_cons_subset known)
      refine ⟨of', first.trans second, List.forall_mem_cons.mpr ⟨fun nonempty => ?_, all⟩⟩
      have spelled : atoms g.nonterminals p.body ≠ [] := by simpa [atoms] using nonempty
      exact second.extension.holds (held spelled)

theorem Faithful.addProduction (h : Faithful g form of) {p : Production} (listed : p ∈ g.listing) :
    ∃ of', Grown g form of (NormalForm.addProduction g form p) of' := by
  have alone : [p] ⊆ g.listing := by simpa using listed
  obtain ⟨of', grown, _⟩ := h.addProductions alone
  exact ⟨of', grown⟩

/-- The normal form of a grammar is faithful to it and holds all its rules that are not empty. -/
theorem ofGrammar_faithful (g : Grammar) :
    ∃ of, Faithful g (ofGrammar g) of ∧ ∀ p ∈ g.listing, p.body ≠ [] →
      (ofGrammar g).Holds (g.nonterminals.idxOf p.nonterminal) (atoms g.nonterminals p.body) := by
  obtain ⟨of, grown, held⟩ := (faithful_ofNames g).addProductions (List.Subset.refl g.listing)
  exact ⟨of, grown.faithful, held⟩

/-- What a number derives, its sentence derives in the grammar. -/
theorem Faithful.derives (h : Faithful g form of) {id word} (d : form.Derives id word) :
    g.Derives (of id) word ∧ ∀ label ∈ word, label ∉ g := by
  induction d with
  | lexical rule =>
      obtain ⟨_, terminal, derives⟩ := h.lexical _ rule
      exact ⟨derives, by simpa using terminal⟩
  | unit rule _ ih =>
      obtain ⟨_, _, derives⟩ := h.unit _ rule
      exact ⟨derives.trans ih.1, ih.2⟩
  | pair rule _ _ front back =>
      obtain ⟨_, _, _, derives⟩ := h.pair _ rule
      exact ⟨derives.trans (front.1.append back.1), List.forall_mem_append.mpr ⟨front.2, back.2⟩⟩

/-- An expansion in the grammar is spelled by the symbols of the expanded sentence. -/
theorem spells_of_expands (held : ∀ {name body}, g.HasRule name body →
      form.Holds (g.nonterminals.idxOf name) (atoms g.nonterminals body))
    {sentence word} (h : g.Expands sentence word) :
    form.Spells (atoms g.nonterminals sentence) word := by
  induction h with
  | done => rfl
  | keep terminal _ ih =>
      rw [atoms_cons_terminal terminal]
      exact ⟨[_], _, rfl, rfl, ih⟩
  | rule rule _ _ now later =>
      rw [atoms_cons_nonterminal rule.mem]
      exact ⟨_, _, rfl, now.derives (held rule), later⟩

/-- A nonterminal derives the same words in normal form as in the grammar. -/
theorem derives_iff (nonempty : ∀ p ∈ g.listing, p.body ≠ []) {name} (member : name ∈ g) {word} :
    (ofGrammar g).Derives (g.nonterminals.idxOf name) word ↔
      g.Derives [name] word ∧ ∀ label ∈ word, label ∉ g := by
  obtain ⟨of, faithful, held⟩ := ofGrammar_faithful g
  constructor
  · intro d
    rw [← faithful.user_idxOf member]
    exact faithful.derives d
  · rintro ⟨derives, terminals⟩
    have holds : ∀ {name body}, g.HasRule name body →
        (ofGrammar g).Holds (g.nonterminals.idxOf name) (atoms g.nonterminals body) := by
      intro name body rule
      obtain ⟨p, listed, rfl, rfl⟩ := Grammar.hasRule_iff_listed.mp rule
      exact held p listed (nonempty p listed)
    have spelled := spells_of_expands holds (derives.expands terminals)
    rw [atoms_cons_nonterminal member] at spelled
    obtain ⟨first, second, rfl, below, rfl⟩ := spelled
    rwa [List.append_nil]

end NormalForm

end WordWalk
