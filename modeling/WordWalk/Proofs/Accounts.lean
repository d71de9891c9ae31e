import WordWalk.Proofs.Entries
import WordWalk.Proofs.Provenance
import WordWalk.Proofs.Recognition

/-! # What an index holds of each rule

The helpers of an index are shared out among the rules of the grammar: each rule that is
broken up has tails of its own, and each terminal in such rules has one proxy. The tables
hold what the rules and the pieces of the rules call for, closed under unit rules, and
nothing besides.
-/

namespace WordWalk

/-- The rule is neither a single symbol nor a pair of nonterminals. -/
def Production.Splits (p : Production) (g : Grammar) : Prop :=
  2 ≤ p.body.length ∧ ¬ (p.body.length = 2 ∧ ∀ name ∈ p.body, name ∈ g)

theorem Grammar.getElem?_numbers (g : Grammar) (name : String) :
    g.numbers[name]? = g.nonterminals.idxOf? name := by
  have distinct : g.nonterminals.Nodup := Std.ExtTreeMap.nodup_keys
  have single : (g.nonterminals.zipIdx.reverse.map Prod.fst).Nodup := by
    rwa [List.map_reverse, List.nodup_reverse, List.zipIdx_map_fst]
  apply Option.ext
  intro id
  rw [numbers, TreeMap.getElem?_ofList, lookup_eq_some_iff single, List.mem_reverse,
    List.mk_mem_zipIdx_iff_getElem?]
  by_cases member : name ∈ g
  · rw [NormalForm.idxOf?_nonterminal member, Option.some.injEq]
    constructor
    · intro there
      obtain ⟨inside, rfl⟩ := List.getElem?_eq_some_iff.mp there
      exact distinct.idxOf_getElem id inside
    · rintro rfl
      exact List.getElem?_eq_some_iff.mpr ⟨idxOf_lt member, List.getElem_idxOf (idxOf_lt member)⟩
  · rw [NormalForm.idxOf?_terminal member]
    refine iff_of_false (fun there => member ?_) (Option.some_ne_none id).symm
    exact mem_nonterminals.mp (List.mem_of_getElem? there)

namespace NormalForm

variable {g : Grammar}

theorem length_atoms (body : Rule) : (atoms g.nonterminals body).length = body.length := List.length_map _

theorem terminal_mem_atoms {label : String} {body : Rule} :
    .terminal label ∈ atoms g.nonterminals body ↔ label ∉ g ∧ label ∈ body := by
  induction body with
  | nil => simp [atoms]
  | cons name rest ih =>
      by_cases member : name ∈ g
      · rw [atoms_cons_nonterminal member, List.mem_cons, List.mem_cons, ih]
        have other : label ∉ g → label ≠ name := by
          rintro terminal rfl
          exact terminal member
        simp only [reduceCtorEq, false_or]
        exact and_congr_right fun terminal => (or_iff_right (other terminal)).symm
      · rw [atoms_cons_terminal member, List.mem_cons, List.mem_cons, ih, Atom.terminal.injEq]
        constructor
        · rintro (rfl | later)
          · exact ⟨member, .inl rfl⟩
          · exact later.imp_right .inr
        · rintro ⟨terminal, same | later⟩
          · exact .inl same
          · exact .inr ⟨terminal, later⟩

theorem atoms_eq_terminal {label : String} {body : Rule} :
    atoms g.nonterminals body = [.terminal label] ↔ body = [label] ∧ label ∉ g := by
  constructor
  · intro same
    have inside : label ∉ g ∧ label ∈ body := terminal_mem_atoms.mp (same ▸ List.mem_singleton_self _)
    have length := congrArg List.length same
    rw [length_atoms, List.length_singleton] at length
    obtain ⟨name, rfl⟩ := List.length_eq_one_iff.mp length
    exact ⟨by rw [List.mem_singleton.mp inside.2], inside.1⟩
  · rintro ⟨rfl, terminal⟩
    rw [atoms_cons_terminal terminal]
    rfl

theorem splits_atoms {p : Production} : Splits (atoms g.nonterminals p.body) ↔ p.Splits g := by
  unfold Production.Splits
  match p.body with
  | [] | [_] => simp [atoms, Splits]
  | [a, b] =>
      by_cases first : a ∈ g <;> by_cases second : b ∈ g <;>
        simp [atoms, first, second, Splits, idxOf?_nonterminal, idxOf?_terminal]
  | _ :: _ :: _ :: _ => simp [atoms, Splits]

/-- A helper has no unit rules, so its closure is the helper alone. -/
theorem leads_of_helper {of : Nat → List String} {form : NormalForm} (faithful : form.Faithful g of)
    {helper parent : Nat} (beyond : form.userCount ≤ helper) :
    Saturation.Leads form.parents helper parent ↔ parent = helper := by
  refine Saturation.leads_iff_eq (List.eq_nil_iff_forall_not_mem.mpr fun next step => ?_)
  have user := (faithful.unit _ (NormalForm.mem_parents.mp step)).2.1
  exact absurd user (Nat.not_lt.mpr beyond)

end NormalForm

namespace Index

/-- The number of a nonterminal, or the proxy of a terminal. -/
def numberOf? (index : Index) (name : String) : Option Nat :=
  (index.idOf? name).or (index.form.proxies.lookup name)

/-- Some rule, or some piece of a rule that was broken up, is this pair. -/
def Composes (index : Index) (owned : List (Production × List Nat)) (r : PairRule) : Prop :=
  ∃ o ∈ owned, ∃ head ids, index.idOf? o.1.nonterminal = some head ∧
    o.1.body.map index.numberOf? = ids.map some ∧ r ∈ NormalForm.links head ids o.2

/-- The helpers are shared out among the rules, and the tables hold what follows from the rules. -/
structure Accounts (index : Index) (g : Grammar) (owned : List (Production × List Nat)) : Prop where
  rules : owned.map Prod.fst = g.listing
  /-- A rule owns a tail for each of its symbols before the last two. -/
  count : ∀ o ∈ owned, o.2.length = o.1.body.length - 2
  /-- No helper serves twice. -/
  distinct : (index.form.proxies.map Prod.snd ++ owned.flatMap Prod.snd).Nodup
  helpers : ∀ id, id ∈ index.form.proxies.map Prod.snd ++ owned.flatMap Prod.snd ↔ index.isHelper id = true
  single : (index.form.proxies.map Prod.fst).Nodup
  proxied : ∀ label, label ∈ index.form.proxies.map Prod.fst ↔
    label ∉ g ∧ ∃ p ∈ g.listing, p.Splits g ∧ label ∈ p.body
  /-- The symbols of a rule have numbers, and every number has a closure. -/
  numbered : ∀ p ∈ g.listing, (index.idOf? p.nonterminal).isSome ∧
    (2 ≤ p.body.length → ∀ name ∈ p.body, (index.numberOf? name).isSome)
  closed : ∀ id, (index.unitClosure? id).isSome ↔ id < index.nonterminalCount
  pair : ∀ left right id, id ∈ (index.producersOfPair? left right).getD ∅ ↔
    ∃ head, index.Composes owned ⟨left, right, head⟩ ∧ index.Climbs head id
  pair_some : ∀ left right, (index.producersOfPair? left right).isSome ↔
    ∃ head, index.Composes owned ⟨left, right, head⟩
  label : ∀ label id, id ∈ (index.producersOfLabel? label).getD ∅ ↔
    (label ∉ g ∧ ∃ p ∈ g.listing, p.body = [label] ∧
      ∃ head, index.idOf? p.nonterminal = some head ∧ index.Climbs head id) ∨
    index.form.proxies.lookup label = some id
  label_some : ∀ label, (index.producersOfLabel? label).isSome ↔
    label ∉ g ∧ ∃ p ∈ g.listing, label ∈ p.body
  terminals : ∀ label, label ∈ index.terminals ↔ label ∉ g ∧ ∃ p ∈ g.listing, label ∈ p.body

variable {g : Grammar} {index : Index}

theorem idOf?_ofGrammar (g : Grammar) (name : String) :
    (ofGrammar g).idOf? name = g.nonterminals.idxOf? name := g.getElem?_numbers name

theorem idOf?_nonterminal {name : String} (member : name ∈ g) :
    (ofGrammar g).idOf? name = some (g.nonterminals.idxOf name) := by
  rw [idOf?_ofGrammar, NormalForm.idxOf?_nonterminal member]

theorem idOf?_listed {p : Production} (listed : p ∈ g.listing) :
    (ofGrammar g).idOf? p.nonterminal = some (g.nonterminals.idxOf p.nonterminal) :=
  idOf?_nonterminal (Grammar.mem_of_listed listed)

theorem numberOf?_body (single : ((NormalForm.ofGrammar g).proxies.map Prod.fst).Nodup) {body : Rule}
    {ids : List Nat} (stands : List.Forall₂ (Atom.Numbered (NormalForm.ofGrammar g).proxies)
      (NormalForm.atoms g.nonterminals body) ids) :
    body.map (ofGrammar g).numberOf? = ids.map some := by
  induction body generalizing ids with
  | nil =>
      cases stands
      rfl
  | cons name rest ih =>
      by_cases member : name ∈ g
      · rw [NormalForm.atoms_cons_nonterminal member] at stands
        cases stands with
        | cons first later =>
            rw [List.map_cons, List.map_cons, ih later, numberOf?, idOf?_nonterminal member, first]
            rfl
      · rw [NormalForm.atoms_cons_terminal member] at stands
        cases stands with
        | cons first later =>
            have found : (ofGrammar g).form.proxies.lookup name = some _ :=
              (lookup_eq_some_iff single).mpr first
            rw [List.map_cons, List.map_cons, ih later, numberOf?, idOf?_ofGrammar,
              NormalForm.idxOf?_terminal member, found]
            rfl

section Shares

variable {owned : List (Production × NormalForm.Share)} (rules : owned.map Prod.fst = g.listing)
  (belongs : ∀ o ∈ owned, NormalForm.Ledger.Belongs g o.1 o.2)
  (ledger : NormalForm.Ledger (owned.map Prod.snd) (.ofGrammar g))

/-- What each rule owns. -/
def tailsOf (owned : List (Production × NormalForm.Share)) : List (Production × List Nat) :=
  owned.map fun o => (o.1, o.2.tails)

theorem flatMap_tailsOf (owned : List (Production × NormalForm.Share)) :
    (tailsOf owned).flatMap Prod.snd = (owned.map Prod.snd).flatMap NormalForm.Share.tails := by
  rw [tailsOf, List.flatMap_map, List.flatMap_map]

include rules belongs in
/-- What is said of the head and the body of a share can be said of a rule of the grammar. -/
theorem exists_share (P : Nat → List Atom → Prop) :
    (∃ s ∈ owned.map Prod.snd, P s.head s.body) ↔
      ∃ p ∈ g.listing, P (g.nonterminals.idxOf p.nonterminal) (NormalForm.atoms g.nonterminals p.body) := by
  constructor
  · rintro ⟨_, member, holds⟩
    obtain ⟨o, inside, rfl⟩ := List.mem_map.mp member
    obtain ⟨head, body⟩ := belongs o inside
    exact ⟨o.1, rules ▸ List.mem_map_of_mem inside, head ▸ body ▸ holds⟩
  · rintro ⟨p, listed, holds⟩
    rw [← rules] at listed
    obtain ⟨o, inside, rfl⟩ := List.mem_map.mp listed
    obtain ⟨head, body⟩ := belongs o inside
    exact ⟨o.2, List.mem_map_of_mem inside, head ▸ body ▸ holds⟩

include belongs ledger in
theorem numberOf?_share {o : Production × NormalForm.Share} (member : o ∈ owned)
    (long : 2 ≤ o.1.body.length) : o.1.body.map (ofGrammar g).numberOf? = o.2.ids.map some := by
  obtain ⟨_, body⟩ := belongs o member
  have fair := ledger.fair o.2 (List.mem_map_of_mem member)
  have stands := fair.stands (by rwa [body, NormalForm.length_atoms])
  rw [body] at stands
  exact numberOf?_body ledger.proxied.single stands

include belongs ledger in
theorem share_of_short {o : Production × NormalForm.Share} (member : o ∈ owned)
    (short : o.1.body.length < 2) : o.2.tails = [] ∧ o.2.ids = [] := by
  obtain ⟨_, body⟩ := belongs o member
  have fair := ledger.fair o.2 (List.mem_map_of_mem member)
  have few : o.2.body.length < 2 := by rwa [body, NormalForm.length_atoms]
  have none : o.2.tails.length = 0 := by
    rw [fair.count]
    omega
  exact ⟨List.length_eq_zero_iff.mp none, fair.short few⟩

include rules belongs in
theorem user_producers {label : String} {id : Nat} :
    (∃ s ∈ owned.map Prod.snd, s.body = [.terminal label] ∧ (ofGrammar g).Climbs s.head id) ↔
      label ∉ g ∧ ∃ p ∈ g.listing, p.body = [label] ∧
        ∃ head, (ofGrammar g).idOf? p.nonterminal = some head ∧ (ofGrammar g).Climbs head id := by
  rw [exists_share rules belongs
    (fun head body => body = [.terminal label] ∧ (ofGrammar g).Climbs head id)]
  simp only [NormalForm.atoms_eq_terminal]
  constructor
  · rintro ⟨p, listed, ⟨body, terminal⟩, climbs⟩
    exact ⟨terminal, p, listed, body, _, idOf?_listed listed, climbs⟩
  · rintro ⟨terminal, p, listed, body, head, found, climbs⟩
    obtain rfl := Option.some.inj ((idOf?_listed listed).symm.trans found)
    exact ⟨p, listed, ⟨body, terminal⟩, climbs⟩

include rules belongs ledger

theorem composes_iff {r : PairRule} :
    (ofGrammar g).Composes (tailsOf owned) r ↔ r ∈ (NormalForm.ofGrammar g).pairs := by
  have known : ∀ o ∈ owned, (ofGrammar g).idOf? o.1.nonterminal = some o.2.head := by
    intro o member
    rw [(belongs o member).1]
    exact idOf?_listed (rules ▸ List.mem_map_of_mem member)
  rw [ledger.pair]
  constructor
  · rintro ⟨_, inside, head, ids, found, same, link⟩
    obtain ⟨o, member, rfl⟩ := List.mem_map.mp inside
    obtain rfl : o.2.head = head := Option.some.inj ((known o member).symm.trans found)
    refine ⟨o.2, List.mem_map_of_mem member, ?_⟩
    by_cases long : 2 ≤ o.1.body.length
    · have equal := (numberOf?_share belongs ledger member long).symm.trans same
      rwa [List.map_injective_iff.mpr (fun _ _ => Option.some.inj) equal]
    · have length : o.1.body.length = ids.length := by simpa using congrArg List.length same
      have tails := (share_of_short belongs ledger member (by omega)).1
      rw [tails, NormalForm.links_of_short (by omega)] at link
      cases link
  · rintro ⟨_, inside, link⟩
    obtain ⟨o, member, rfl⟩ := List.mem_map.mp inside
    refine ⟨(o.1, o.2.tails), List.mem_map_of_mem member, o.2.head, o.2.ids, known o member, ?_, link⟩
    by_cases long : 2 ≤ o.1.body.length
    · exact numberOf?_share belongs ledger member long
    · obtain ⟨tails, ids⟩ := share_of_short belongs ledger member (by omega)
      rw [tails, ids] at link
      cases link

theorem proxied_iff {label : String} :
    label ∈ (NormalForm.ofGrammar g).proxies.map Prod.fst ↔
      label ∉ g ∧ ∃ p ∈ g.listing, p.Splits g ∧ label ∈ p.body := by
  rw [ledger.labels, exists_share rules belongs
    (fun _ body => NormalForm.Splits body ∧ .terminal label ∈ body)]
  simp only [NormalForm.splits_atoms, NormalForm.terminal_mem_atoms]
  constructor
  · rintro ⟨p, listed, splits, terminal, inside⟩
    exact ⟨terminal, p, listed, splits, inside⟩
  · rintro ⟨terminal, p, listed, splits, inside⟩
    exact ⟨p, listed, splits, terminal, inside⟩

theorem numbered {p : Production} (listed : p ∈ g.listing) (long : 2 ≤ p.body.length) :
    ∀ name ∈ p.body, ((ofGrammar g).numberOf? name).isSome := by
  intro name inside
  obtain ⟨o, member, rfl⟩ := List.mem_map.mp (rules ▸ listed)
  have known : (ofGrammar g).numberOf? name ∈ o.2.ids.map some := by
    rw [← numberOf?_share belongs ledger member long]
    exact List.mem_map_of_mem inside
  obtain ⟨id, _, found⟩ := List.mem_map.mp known
  rw [← found]
  rfl

theorem isSome_producersOfPair_iff {left right : Nat} :
    ((ofGrammar g).producersOfPair? left right).isSome ↔
      ∃ head, (ofGrammar g).Composes (tailsOf owned) ⟨left, right, head⟩ := by
  simp only [composes_iff rules belongs ledger]
  rw [ofGrammar, isSome_producersOfPair]
  constructor
  · rintro ⟨r, member, rfl, rfl⟩
    exact ⟨r.head, member⟩
  · rintro ⟨head, member⟩
    exact ⟨_, member, rfl, rfl⟩

theorem mem_producersOfPair_iff {left right id : Nat} (bounded : (NormalForm.ofGrammar g).Bounded) :
    id ∈ ((ofGrammar g).producersOfPair? left right).getD ∅ ↔
      ∃ head, (ofGrammar g).Composes (tailsOf owned) ⟨left, right, head⟩ ∧
        (ofGrammar g).Climbs head id := by
  simp only [composes_iff rules belongs ledger]
  rw [ofGrammar, mem_producersOfPair bounded]
  constructor
  · rintro ⟨r, member, rfl, rfl, led⟩
    exact ⟨r.head, member, (climbs_iff (bounded.pair r member)).mpr led⟩
  · rintro ⟨head, member, climbs⟩
    exact ⟨_, member, rfl, rfl, (climbs_iff (bounded.pair _ member)).mp climbs⟩

theorem isSome_producersOfLabel_iff {label : String} :
    ((ofGrammar g).producersOfLabel? label).isSome ↔ label ∉ g ∧ ∃ p ∈ g.listing, label ∈ p.body := by
  rw [ofGrammar, isSome_producersOfLabel, ledger.exists_lexical_iff,
    exists_share rules belongs (fun _ body => .terminal label ∈ body)]
  simp only [NormalForm.terminal_mem_atoms]
  constructor
  · rintro ⟨p, listed, terminal, inside⟩
    exact ⟨terminal, p, listed, inside⟩
  · rintro ⟨terminal, p, listed, inside⟩
    exact ⟨p, listed, terminal, inside⟩

theorem mem_producersOfLabel_iff {of : Nat → List String}
    (faithful : (NormalForm.ofGrammar g).Faithful g of) {label : String} {id : Nat} :
    id ∈ ((ofGrammar g).producersOfLabel? label).getD ∅ ↔
      (label ∉ g ∧ ∃ p ∈ g.listing, p.body = [label] ∧
        ∃ head, (ofGrammar g).idOf? p.nonterminal = some head ∧ (ofGrammar g).Climbs head id) ∨
      (ofGrammar g).form.proxies.lookup label = some id := by
  have bounded := faithful.bounded
  have entry : id ∈ ((ofGrammar g).producersOfLabel? label).getD ∅ ↔
      ∃ r ∈ (NormalForm.ofGrammar g).lexicals, r.label = label ∧
        Saturation.Leads (NormalForm.ofGrammar g).parents r.head id := mem_producersOfLabel bounded
  have proxy : (ofGrammar g).form.proxies.lookup label = some id ↔
      (label, id) ∈ (NormalForm.ofGrammar g).proxies := lookup_eq_some_iff ledger.proxied.single
  have alone : ∀ {label helper parent}, (label, helper) ∈ (NormalForm.ofGrammar g).proxies →
      (Saturation.Leads (NormalForm.ofGrammar g).parents helper parent ↔ parent = helper) := by
    intro label helper parent member
    apply NormalForm.leads_of_helper faithful
    exact (ledger.mem_helpers.mp (List.mem_append_left _ (List.mem_map_of_mem member))).1
  rw [entry, proxy, ← user_producers rules belongs]
  constructor
  · rintro ⟨r, member, rfl, led⟩
    have climbs : (ofGrammar g).Climbs r.head id := (climbs_iff (bounded.lexical r member)).mpr led
    cases (ledger.proxied.lexical r).mp member with
    | inl own =>
        obtain ⟨s, inside, body, head⟩ := own
        exact .inl ⟨s, inside, body, head ▸ climbs⟩
    | inr helper =>
        rw [(alone helper).mp led]
        exact .inr helper
  · rintro (⟨s, inside, body, climbs⟩ | helper)
    · have member := (ledger.proxied.lexical ⟨label, s.head⟩).mpr (.inl ⟨s, inside, body, rfl⟩)
      exact ⟨_, member, rfl, (climbs_iff (bounded.lexical _ member)).mp climbs⟩
    · exact ⟨⟨label, id⟩, (ledger.proxied.lexical _).mpr (.inr helper), rfl, (alone helper).mpr rfl⟩

end Shares

/-- The index of a grammar accounts for all its rules: every rule that is broken up has tails of
    its own, every terminal in such rules has one proxy, and the tables hold the closures of
    what the rules and their pieces call for. -/
theorem build_accounts (built : build .normalize g = .ok index) : ∃ owned, index.Accounts g owned := by
  obtain ⟨_, _, rfl⟩ := build_ok built
  obtain ⟨owned, rules, belongs, ledger⟩ := NormalForm.ofGrammar_ledger g
  obtain ⟨of, faithful, _⟩ := NormalForm.ofGrammar_faithful g
  refine ⟨tailsOf owned, ?_⟩
  constructor
  case rules =>
    rw [tailsOf, List.map_map]
    exact rules
  case count =>
    intro o member
    obtain ⟨o, inside, rfl⟩ := List.mem_map.mp member
    have fair := ledger.fair o.2 (List.mem_map_of_mem inside)
    rw [fair.count, (belongs o inside).2, NormalForm.length_atoms]
  case distinct =>
    rw [flatMap_tailsOf]
    exact ledger.nodup_helpers
  case helpers =>
    intro id
    rw [flatMap_tailsOf, isHelper, Bool.and_eq_true, decide_eq_true_iff, decide_eq_true_iff]
    exact ledger.mem_helpers
  case single => exact ledger.proxied.single
  case proxied => exact fun _ => proxied_iff rules belongs ledger
  case numbered =>
    intro p listed
    exact ⟨by rw [idOf?_listed listed]; rfl, numbered rules belongs ledger listed⟩
  case closed =>
    intro id
    rw [isSome_unitClosure, nonterminalCount]
    simp [ofGrammar, ofNormalForm]
  case pair => exact fun _ _ _ => mem_producersOfPair_iff rules belongs ledger faithful.bounded
  case pair_some => exact fun _ _ => isSome_producersOfPair_iff rules belongs ledger
  case label => exact fun _ _ => mem_producersOfLabel_iff rules belongs ledger faithful
  case label_some => exact fun _ => isSome_producersOfLabel_iff rules belongs ledger
  case terminals =>
    intro label
    rw [mem_terminals]
    exact isSome_producersOfLabel_iff rules belongs ledger

end Index

/-- Nested brackets, where one of the rules was added twice. -/
def Grammar.repeated : Grammar :=
  (((∅ : Grammar).addRule "S" ["a", "S", "b"]).addRule "S" ["a", "S", "b"]).addRule "S" ["a", "b"]

theorem accounts_repeated : ∃ index owned first second, Index.build .normalize .repeated = .ok index ∧
    index.Accounts .repeated owned ∧ owned.map Prod.snd = [[first], [second], []] ∧ first ≠ second := by
  have built : Index.build .normalize .repeated = .ok (.ofGrammar .repeated) := by
    have faultless : Grammar.repeated.fault? .normalize = none := by decide +kernel
    rw [Index.build, faultless]
  have listed : Grammar.repeated.listing =
      [⟨"S", 0, ["a", "S", "b"]⟩, ⟨"S", 1, ["a", "S", "b"]⟩, ⟨"S", 2, ["a", "b"]⟩] := by decide +kernel
  obtain ⟨owned, accounts⟩ := Index.build_accounts built
  have rules := accounts.rules
  have count := accounts.count
  have distinct := (List.nodup_append.mp accounts.distinct).2.1
  rw [listed] at rules
  match owned, rules with
  | [(_, one), (_, two), (_, three)], rules =>
      simp only [List.map_cons, List.map_nil, List.cons.injEq, and_true] at rules
      obtain ⟨rfl, rfl, rfl⟩ := rules
      simp only [List.forall_mem_cons] at count
      obtain ⟨first, rfl⟩ := List.length_eq_one_iff.mp count.1
      obtain ⟨second, rfl⟩ := List.length_eq_one_iff.mp count.2.1
      obtain rfl := List.length_eq_zero_iff.mp count.2.2.1
      refine ⟨_, _, first, second, built, accounts, rfl, ?_⟩
      rintro rfl
      simp at distinct

end WordWalk
