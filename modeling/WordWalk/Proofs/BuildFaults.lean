import WordWalk.Proofs.CheckedBuild

/-! # Which fault of a grammar is reported

Rules are ordered by their nonterminals, and the rules of one nonterminal by their places. A
grammar with a start symbol is refused because of its first rule in this order that is empty
or, under the strict policy, outside normal form; no other fault counts. The construction
that adds rule after rule finds the same one.
-/

namespace WordWalk

namespace Production

/-- One rule stands before another one. -/
def Before (p q : Production) : Prop :=
  p.nonterminal < q.nonterminal ∨ p.nonterminal = q.nonterminal ∧ p.index < q.index

theorem Before.asymm {p q : Production} (h : p.Before q) : ¬ q.Before p := by
  rintro (less | ⟨same, less⟩)
  · rcases h with before | ⟨same, _⟩
    · exact String.lt_asymm before less
    · exact String.lt_irrefl _ (same ▸ less)
  · rcases h with before | ⟨_, before⟩
    · exact String.lt_irrefl _ (same ▸ before)
    · exact Nat.lt_asymm before less

end Production

namespace Grammar

/-- A rule in normal form is a single terminal or a pair of nonterminals. -/
inductive Regular (g : Grammar) : Rule → Prop
  | terminal {label} (outside : label ∉ g) : Regular g [label]
  | pair {left right} (first : left ∈ g) (second : right ∈ g) : Regular g [left, right]

/-- The rule keeps the grammar from being indexed. -/
def Refuses (g : Grammar) (policy : Policy) (body : Rule) : Prop :=
  body = [] ∨ policy = .strict ∧ ¬ g.Regular body

/-- The rule is refused, and none that stands before it is. -/
structure FirstRefused (g : Grammar) (policy : Policy) (p : Production) : Prop where
  listed : p ∈ g.listing
  refused : g.Refuses policy p.body
  earlier : ∀ q ∈ g.listing, q.Before p → ¬ g.Refuses policy q.body

theorem listing_sorted (g : Grammar) : g.listing.Pairwise Production.Before := by
  rw [listing, List.pairwise_flatMap]
  constructor
  · rintro ⟨name, rules⟩ _
    rw [List.pairwise_map, List.pairwise_iff_getElem]
    intro i j hi hj before
    simpa [Production.Before] using before
  · refine Std.ExtTreeMap.ordered_keys_toList.imp fun less p first q second => ?_
    obtain ⟨_, _, rfl⟩ := List.mem_map.mp first
    obtain ⟨_, _, rfl⟩ := List.mem_map.mp second
    exact .inl (compareOfLessAndEq_eq_lt.mp less)

end Grammar

/-- The reason given for a rule outside normal form. -/
def Rule.departure : Rule → String
  | [_] => "unit production"
  | [_, _] => "terminal inside a binary rule"
  | _ => "more than two symbols"

/-- What is reported about a rule that is refused. -/
inductive Production.Reported (p : Production) : BuildError → Prop
  | empty (none : p.body = []) : p.Reported (.emptyRule p.nonterminal p.index)
  | irregular {how} (some : p.body ≠ []) (worded : how.text = p.body.departure) :
      p.Reported (.irregular p.nonterminal p.index how)

theorem Irregularity.text_inj {how other : Irregularity} (same : how.text = other.text) : how = other := by
  cases how <;> cases other
  all_goals first | rfl | exact absurd same (by decide)

namespace Grammar

variable {g : Grammar} {policy : Policy}

theorem regular_single {name : String} : g.Regular [name] ↔ name ∉ g := by
  constructor
  · rintro ⟨outside⟩
    exact outside
  · exact .terminal

theorem regular_pair {left right : String} : g.Regular [left, right] ↔ left ∈ g ∧ right ∈ g := by
  constructor
  · rintro (_ | ⟨first, second⟩)
    exact ⟨first, second⟩
  · rintro ⟨first, second⟩
    exact .pair first second

theorem Regular.length_le {body : Rule} (h : g.Regular body) : body.length ≤ 2 := by
  cases h <;> simp

/-- A rule is found irregular exactly if it is not in normal form, with the reason for its length. -/
theorem irregularity?_classify {body : Rule} (some : body ≠ []) :
    (g.Regular body ∧ irregularity? (body.map g.classify) = none) ∨
    (¬ g.Regular body ∧ ∃ how, irregularity? (body.map g.classify) = .some how ∧ how.text = body.departure) := by
  match body with
  | [] => exact absurd rfl some
  | [a] =>
      rw [regular_single]
      by_cases inside : a ∈ g
      · rw [List.map_singleton, Checked.classify_nonterminal inside]
        exact .inr ⟨not_not_intro inside, _, rfl, rfl⟩
      · rw [List.map_singleton, Checked.classify_terminal inside]
        exact .inl ⟨inside, rfl⟩
  | [a, b] =>
      rw [regular_pair, List.map_cons, List.map_singleton]
      by_cases left : a ∈ g <;> by_cases right : b ∈ g
      · rw [Checked.classify_nonterminal left, Checked.classify_nonterminal right]
        exact .inl ⟨⟨left, right⟩, rfl⟩
      · rw [Checked.classify_nonterminal left, Checked.classify_terminal right]
        exact .inr ⟨fun both => right both.2, _, rfl, rfl⟩
      · rw [Checked.classify_terminal left]
        exact .inr ⟨fun both => left both.1, _, rfl, rfl⟩
      · rw [Checked.classify_terminal left]
        exact .inr ⟨fun both => left both.1, _, rfl, rfl⟩
  | a :: b :: c :: rest =>
      refine .inr ⟨fun regular => ?_, .tooLong, ?_, rfl⟩
      · have few := regular.length_le
        simp only [List.length_cons] at few
        omega
      · simp [irregularity?]

end Grammar

namespace Production

variable {g : Grammar} {policy : Policy} {p : Production} {why : BuildError}

theorem Reported.unique {other : BuildError} (h : p.Reported why) (k : p.Reported other) : why = other := by
  cases h with
  | empty none =>
      cases k with
      | empty => rfl
      | irregular some => exact absurd none some
  | irregular some worded =>
      cases k with
      | empty none => exact absurd none some
      | irregular _ same => rw [Irregularity.text_inj (worded.trans same.symm)]

theorem fault?_cases (g : Grammar) (policy : Policy) (p : Production) :
    (¬ g.Refuses policy p.body ∧ p.fault? g policy = none) ∨
    (g.Refuses policy p.body ∧ ∃ why, p.fault? g policy = some why ∧ p.Reported why) := by
  by_cases none : p.body = []
  · exact .inr ⟨.inl none, _, by simp [fault?, none], .empty none⟩
  · cases policy with
    | normalize => exact .inl ⟨by simp [Grammar.Refuses, none], by simp [fault?, none]⟩
    | strict =>
        rcases Grammar.irregularity?_classify (g := g) none with ⟨regular, found⟩ | ⟨not, how, found, worded⟩
        · exact .inl ⟨by simp [Grammar.Refuses, none, regular], by simp [fault?, none, found]⟩
        · exact .inr ⟨.inr ⟨rfl, not⟩, _, by simp [fault?, none, found], .irregular none worded⟩

theorem fault?_eq_none : p.fault? g policy = none ↔ ¬ g.Refuses policy p.body := by
  rcases fault?_cases g policy p with ⟨fine, found⟩ | ⟨refused, why, found, _⟩
  · exact iff_of_true found fine
  · exact iff_of_false (by simp [found]) (not_not_intro refused)

theorem fault?_eq_some : p.fault? g policy = some why ↔ g.Refuses policy p.body ∧ p.Reported why := by
  rcases fault?_cases g policy p with ⟨fine, found⟩ | ⟨refused, other, found, reported⟩
  · exact iff_of_false (by simp [found]) fun h => fine h.1
  · rw [found, Option.some.injEq]
    constructor
    · rintro rfl
      exact ⟨refused, reported⟩
    · exact fun h => reported.unique h.2

end Production

theorem Grammar.findSome?_fault {g : Grammar} {policy : Policy} {why : BuildError} :
    g.listing.findSome? (·.fault? g policy) = some why ↔ ∃ p, g.FirstRefused policy p ∧ p.Reported why := by
  have least (p : Production) : (∃ i, FirstFailing (fun q => ¬ g.Refuses policy q.body) g.listing i p) ↔
      g.FirstRefused policy p := by
    rw [exists_firstFailing_iff (fun _ _ => Production.Before.asymm) g.listing_sorted]
    exact ⟨fun h => ⟨h.1, not_not.mp h.2.1, h.2.2⟩, fun h => ⟨h.listed, not_not_intro h.refused, h.earlier⟩⟩
  rw [findSome?_eq_some]
  simp only [Production.fault?_eq_none, Production.fault?_eq_some, ← least]
  constructor
  · rintro ⟨i, p, first, _, reported⟩
    exact ⟨p, ⟨i, first⟩, reported⟩
  · rintro ⟨p, ⟨i, first⟩, reported⟩
    exact ⟨i, p, first, not_not.mp first.fails, reported⟩

namespace Index

variable {policy : Policy} {g : Grammar}

theorem build_known (start : startSymbol ∈ g) : build policy g =
    match g.listing.findSome? (·.fault? g policy) with
    | some why => .error why
    | none => .ok (ofGrammar g) := by
  have fault : g.fault? policy = g.listing.findSome? (·.fault? g policy) := if_pos start
  unfold build
  cases listed : g.listing.findSome? (·.fault? g policy) with
  | some why => rw [fault, listed]
  | none => rw [fault, listed]

theorem build_eq_ok {index : Index} :
    build policy g = .ok index ↔
      startSymbol ∈ g ∧ (∀ p ∈ g.listing, ¬ g.Refuses policy p.body) ∧ index = ofGrammar g := by
  by_cases start : startSymbol ∈ g
  · simp only [build_known start, ← Production.fault?_eq_none, ← List.findSome?_eq_none_iff, start, true_and]
    cases g.listing.findSome? (·.fault? g policy) <;> simp [eq_comm]
  · simp [build, Grammar.fault?, start]

theorem build_eq_error {why : BuildError} (start : startSymbol ∈ g) :
    build policy g = .error why ↔ ∃ p, g.FirstRefused policy p ∧ p.Reported why := by
  rw [build_known start, ← Grammar.findSome?_fault]
  cases g.listing.findSome? (·.fault? g policy) <;> simp

/-- Without a start symbol it is the start symbol that is missed, whatever else is wrong. Otherwise
    the fault is about the first rule that is empty or, under the strict policy, outside normal
    form, and if there is no such rule the grammar has an index. Adding rule after rule with
    every lookup checked comes to the same, so no lookup fails. -/
theorem build_faults (policy : Policy) (g : Grammar) :
    (build policy g = .error .missingStart ↔ startSymbol ∉ g) ∧
    (startSymbol ∈ g →
      ((∃ why, build policy g = .error why) ↔ ∃ p ∈ g.listing, g.Refuses policy p.body) ∧
      (∀ why, build policy g = .error why ↔ ∃ p, g.FirstRefused policy p ∧ p.Reported why) ∧
      ((∀ p ∈ g.listing, ¬ g.Refuses policy p.body) → build policy g = .ok (ofGrammar g))) ∧
    Checked.build policy g = (build policy g).mapError .fault := by
  refine ⟨⟨fun missed start => ?_, fun absent => ?_⟩, fun start => ⟨⟨?_, ?_⟩, fun why => build_eq_error start,
    fun fine => build_eq_ok.mpr ⟨start, fine, rfl⟩⟩, Checked.build_eq policy g⟩
  · obtain ⟨p, _, reported⟩ := (build_eq_error start).mp missed
    cases reported
  · rw [build, Grammar.fault?, if_neg absent]
  · rintro ⟨why, stopped⟩
    obtain ⟨p, first, _⟩ := (build_eq_error start).mp stopped
    exact ⟨p, first.listed, first.refused⟩
  · rintro ⟨p, listed, refused⟩
    cases built : build policy g with
    | error why => exact ⟨why, rfl⟩
    | ok index => exact absurd refused ((build_eq_ok.mp built).2.1 p listed)

end Index

/-- Rules with faults of several kinds, the last rule of all being empty. -/
def Grammar.faulty : Grammar :=
  ((((((∅ : Grammar).addRule "S" []).addRule "C" ["C", "S", "c"]).addRule "B" ["S", "S"]).addRule "B"
    ["b"]).addRule "B" ["C"]).addRule "B" ["b", "C"]

theorem build_faults_several :
    startSymbol ∈ Grammar.faulty ∧
    (∃ body, Grammar.faulty.FirstRefused .strict ⟨"B", 2, body⟩ ∧ body.departure = "unit production") ∧
    (∃ body, Grammar.faulty.FirstRefused .normalize ⟨"S", 0, body⟩ ∧ body = []) := by
  have start : startSymbol ∈ Grammar.faulty := by decide +kernel
  have strict : Index.build .strict .faulty = .error (.irregular "B" 2 .unitProduction) := by
    have fault : Grammar.faulty.fault? .strict = some (.irregular "B" 2 .unitProduction) := by decide +kernel
    rw [Index.build, fault]
  have normalize : Index.build .normalize .faulty = .error (.emptyRule "S" 0) := by
    have fault : Grammar.faulty.fault? .normalize = some (.emptyRule "S" 0) := by decide +kernel
    rw [Index.build, fault]
  refine ⟨start, ?_, ?_⟩
  · obtain ⟨⟨_, _, body⟩, first, reported⟩ :=
      (((Index.build_faults .strict .faulty).2.1 start).2.1 _).mp strict
    cases reported with
    | irregular _ worded => exact ⟨body, first, worded.symm⟩
  · obtain ⟨⟨_, _, body⟩, first, reported⟩ :=
      (((Index.build_faults .normalize .faulty).2.1 start).2.1 _).mp normalize
    cases reported with
    | empty none => exact ⟨body, first, none⟩

end WordWalk
