import WordWalk.Proofs.Accounts

/-! # Unit rules

A rule whose body is a single nonterminal adds nothing to a word. An index has no such rules:
the closure of a number holds those that lead down to it by unit rules, and every entry of
the tables holds the closures of all its members. So the numbers in the entry for a label
are those that derive the label alone.
-/

namespace WordWalk

/-- A rule of the parent has the child as its body. -/
def Grammar.UnitRule (g : Grammar) (parent child : String) : Prop := child ∈ g ∧ g.HasRule parent [child]

namespace NormalForm

variable {g : Grammar} {form : NormalForm} {of : Nat → List String}

theorem atoms_eq_nonterminal {id : Nat} {body : Rule} :
    atoms g.nonterminals body = [.nonterminal id] ↔
      ∃ name ∈ g, body = [name] ∧ g.nonterminals.idxOf name = id := by
  constructor
  · intro same
    have length := congrArg List.length same
    rw [length_atoms, List.length_singleton] at length
    obtain ⟨name, rfl⟩ := List.length_eq_one_iff.mp length
    by_cases member : name ∈ g
    · rw [atoms_cons_nonterminal member] at same
      exact ⟨name, member, rfl, Atom.nonterminal.inj (List.head_eq_of_cons_eq same)⟩
    · rw [atoms_cons_terminal member] at same
      cases List.head_eq_of_cons_eq same
  · rintro ⟨name, member, rfl, rfl⟩
    rw [atoms_cons_nonterminal member]
    rfl

theorem mem_parents_ofGrammar {parent child : Nat} :
    parent ∈ (ofGrammar g).parents child ↔ ∃ p c, g.UnitRule p c ∧
      g.nonterminals.idxOf p = parent ∧ g.nonterminals.idxOf c = child := by
  obtain ⟨owned, rules, belongs, ledger⟩ := ofGrammar_ledger g
  rw [mem_parents, ledger.unit, Index.exists_share rules belongs
    (fun head body => body = [.nonterminal child] ∧ head = parent)]
  simp only [atoms_eq_nonterminal]
  constructor
  · rintro ⟨p, listed, ⟨name, member, body, number⟩, head⟩
    exact ⟨p.nonterminal, name, ⟨member, Grammar.hasRule_iff_listed.mpr ⟨p, listed, rfl, body⟩⟩, head, number⟩
  · rintro ⟨_, name, ⟨member, rule⟩, head, number⟩
    obtain ⟨p, listed, rfl, body⟩ := Grammar.hasRule_iff_listed.mp rule
    exact ⟨p, listed, ⟨name, member, body, number⟩, head⟩

theorem Faithful.leads_lt (h : Faithful g form of) {id parent : Nat} (inside : id < form.names.size)
    (led : Saturation.Leads form.parents id parent) : parent < form.names.size := by
  induction led with
  | refl => exact inside
  | tail _ last => exact Nat.lt_of_lt_of_le (h.unit _ (mem_parents.mp last)).1 h.userCount_le

end NormalForm

namespace Index

variable {g : Grammar} {index : Index} {policy : Policy}

/-- One unit rule of the grammar leads from the number of its body up to that of its head. -/
def UnitStep (index : Index) (g : Grammar) (child parent : Nat) : Prop :=
  ∃ p c, g.UnitRule p c ∧ index.idOf? p = some parent ∧ index.idOf? c = some child

theorem unitStep_iff {child parent : Nat} :
    (ofGrammar g).UnitStep g child parent ↔ parent ∈ (NormalForm.ofGrammar g).parents child := by
  rw [NormalForm.mem_parents_ofGrammar]
  refine exists_congr fun p => exists_congr fun c => and_congr_right fun rule => ?_
  rw [idOf?_nonterminal rule.2.mem, idOf?_nonterminal rule.1, Option.some.injEq, Option.some.injEq]

theorem leads_iff_unitSteps {id parent : Nat} :
    Saturation.Leads (NormalForm.ofGrammar g).parents id parent ↔
      Relation.ReflTransGen ((ofGrammar g).UnitStep g) id parent := by
  have same : (ofGrammar g).UnitStep g = fun a b => b ∈ (NormalForm.ofGrammar g).parents a := by
    funext child parent
    exact propext unitStep_iff
  rw [same]
  rfl

theorem unitClosure?_ofGrammar {id : Nat} (inside : id < (ofGrammar g).nonterminalCount) :
    (ofGrammar g).unitClosure? id = some ((NormalForm.ofGrammar g).ancestors id) :=
  unitClosure?_ofNormalForm inside

/-- What holds the closures of the heads of some rules holds the closures of all its members. -/
theorem closed_of_leads {ρ : Type} {rule : ρ → Prop} {head : ρ → Nat} {producers : IdSet}
    (inside : ∀ r, rule r → head r < (ofGrammar g).nonterminalCount)
    (entry : ∀ id, id ∈ producers ↔
      ∃ r, rule r ∧ Saturation.Leads (NormalForm.ofGrammar g).parents (head r) id)
    {id : Nat} (member : id ∈ producers) :
    ∃ closure, (ofGrammar g).unitClosure? id = some closure ∧ ∀ a ∈ closure, a ∈ producers := by
  obtain ⟨of, faithful, _⟩ := NormalForm.ofGrammar_faithful g
  obtain ⟨r, known, led⟩ := (entry id).mp member
  refine ⟨_, unitClosure?_ofGrammar (faithful.leads_lt (inside r known) led), fun a up => ?_⟩
  exact (entry a).mpr ⟨r, known, led.trans (NormalForm.mem_ancestors.mp up)⟩

theorem mem_producersOfLabel_derives (nonempty : ∀ p ∈ g.listing, p.body ≠ []) {name label : String}
    (member : name ∈ g) :
    g.nonterminals.idxOf name ∈ ((ofGrammar g).producersOfLabel? label).getD ∅ ↔
      label ∉ g ∧ g.Derives [name] [label] := by
  obtain ⟨of, faithful, _⟩ := NormalForm.ofGrammar_faithful g
  have tables : (ofGrammar g).Derives (g.nonterminals.idxOf name) [label] ↔
      (NormalForm.ofGrammar g).Derives (g.nonterminals.idxOf name) [label] := derives_iff faithful.bounded
  rw [← derives_single, tables, NormalForm.derives_iff nonempty member, List.forall_mem_singleton, and_comm]

/-- The closure of a number holds exactly the numbers that reach it going down by unit rules of the
    grammar, and the loop that collects them comes to an end. The closure of a helper is the
    helper alone. The entries of the tables hold the closures of their members, and a
    nonterminal is in the entry for a label exactly if it derives the label alone. -/
theorem unitClosures_exact (built : build policy g = .ok index) :
    (∀ id < index.nonterminalCount, ∃ closure, index.unitClosure? id = some closure ∧
      Saturation.Ends (fun _ => index.form.parents) [id] ∅ closure ∧
      (∀ parent, parent ∈ closure ↔ Relation.ReflTransGen (index.UnitStep g) id parent) ∧
      (index.isHelper id = true → ∀ parent, parent ∈ closure ↔ parent = id)) ∧
    (∀ label producers, index.producersOfLabel? label = some producers → ∀ id ∈ producers,
      ∃ closure, index.unitClosure? id = some closure ∧ ∀ a ∈ closure, a ∈ producers) ∧
    (∀ left right producers, index.producersOfPair? left right = some producers → ∀ id ∈ producers,
      ∃ closure, index.unitClosure? id = some closure ∧ ∀ a ∈ closure, a ∈ producers) ∧
    (∀ name ∈ g, ∀ label, ∃ id, index.idOf? name = some id ∧
      (id ∈ (index.producersOfLabel? label).getD ∅ ↔ label ∉ g ∧ g.Derives [name] [label])) := by
  obtain ⟨_, nonempty, rfl⟩ := build_ok built
  obtain ⟨of, faithful, _⟩ := NormalForm.ofGrammar_faithful g
  have bounded := faithful.bounded
  refine ⟨fun id inside => ?_, fun label producers found => ?_, fun left right producers found => ?_,
    fun name member label => ?_⟩
  · refine ⟨_, unitClosure?_ofGrammar inside, NormalForm.ends_ancestors _ id, fun parent => ?_,
      fun helper parent => ?_⟩
    · rw [NormalForm.mem_ancestors, leads_iff_unitSteps]
    · rw [isHelper, Bool.and_eq_true, decide_eq_true_iff] at helper
      rw [NormalForm.mem_ancestors, NormalForm.leads_of_helper faithful helper.1]
  · have entry (id : Nat) : id ∈ producers ↔
        ∃ r : LexicalRule, (r ∈ (NormalForm.ofGrammar g).lexicals ∧ r.label = label) ∧
          Saturation.Leads (NormalForm.ofGrammar g).parents r.head id := by
      have all : id ∈ ((ofGrammar g).producersOfLabel? label).getD ∅ ↔ _ := mem_producersOfLabel bounded
      simpa only [found, Option.getD_some, and_assoc] using all
    exact fun id => closed_of_leads (fun r known => bounded.lexical r known.1) entry
  · have entry (id : Nat) : id ∈ producers ↔
        ∃ r : PairRule, (r ∈ (NormalForm.ofGrammar g).pairs ∧ r.left = left ∧ r.right = right) ∧
          Saturation.Leads (NormalForm.ofGrammar g).parents r.head id := by
      have all : id ∈ ((ofGrammar g).producersOfPair? left right).getD ∅ ↔ _ := mem_producersOfPair bounded
      simpa only [found, Option.getD_some, and_assoc] using all
    exact fun id => closed_of_leads (fun r known => bounded.pair r known.1) entry
  · exact ⟨_, idOf?_nonterminal member, mem_producersOfLabel_derives nonempty member⟩

end Index

/-- A circle of unit rules, one of them added twice, and a rule from a nonterminal to itself. -/
def Grammar.circular : Grammar :=
  ((((((∅ : Grammar).addRule "S" ["A"]).addRule "S" ["A"]).addRule "A" ["S"]).addRule "A" ["A"]).addRule "A"
    ["a"]).addRule "S" ["a", "S", "b"]

theorem unitClosures_circular : ∃ index, Index.build .normalize .circular = .ok index ∧
    Grammar.circular.Derives ["S"] ["a"] ∧
    Relation.ReflTransGen (index.UnitStep .circular) 0 1 ∧
    (∃ closure, index.unitClosure? 2 = some closure ∧ ∀ parent, parent ∈ closure ↔ parent = 2) := by
  have built : Index.build .normalize .circular = .ok (.ofGrammar .circular) := by
    have faultless : Grammar.circular.fault? .normalize = none := by decide +kernel
    rw [Index.build, faultless]
  obtain ⟨closures, _, _, labels⟩ := Index.unitClosures_exact built
  refine ⟨_, built, ?_, ?_, ?_⟩
  · obtain ⟨id, named, entry⟩ := labels "S" (by decide +kernel) "a"
    obtain rfl : 1 = id := by
      have number : (Index.ofGrammar .circular).idOf? "S" = some 1 := by decide +kernel
      exact Option.some.inj (number.symm.trans named)
    exact (entry.mp (by decide +kernel)).2
  · obtain ⟨closure, found, _, exact, _⟩ := closures 0 (by decide +kernel)
    have member : 1 ∈ ((Index.ofGrammar .circular).unitClosure? 0).getD ∅ := by decide +kernel
    rw [found] at member
    exact (exact 1).mp member
  · obtain ⟨closure, found, _, _, alone⟩ := closures 2 (by decide +kernel)
    exact ⟨closure, found, alone (by decide +kernel)⟩

end WordWalk
