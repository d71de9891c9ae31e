import Mathlib.Data.List.Forall2
import Mathlib.Data.List.Nodup
import WordWalk.Proofs.Language

/-! # Where the rules of a normal form come from

Every rule of a normal form belongs to one rule of the grammar or is that of a proxy, and
every number beyond the nonterminals is a proxy or the tail of one long rule. A `Share` is
what a rule of the grammar accounts for, and a `Ledger` says that nothing is left over.
-/

namespace WordWalk

/-- The number that takes the place of a symbol in a longer rule. -/
def Atom.Numbered (proxies : List (String × Nat)) : Atom → Nat → Prop
  | .terminal label, id => (label, id) ∈ proxies
  | .nonterminal child, id => id = child

theorem Atom.Numbered.mono {before after : List (String × Nat)} (kept : before ⊆ after) {atom id}
    (h : Atom.Numbered before atom id) : Atom.Numbered after atom id := by
  cases atom with
  | terminal => exact kept h
  | nonterminal => exact h

theorem exists_mem_snoc {α : Type} {P : α → Prop} {xs : List α} {x : α} :
    (∃ y ∈ xs ++ [x], P y) ↔ (∃ y ∈ xs, P y) ∨ P x := by
  simp [or_and_right, exists_or]

theorem range'_extend {k n : Nat} (h : k ≤ n) (m : Nat) :
    List.range' k (n + m - k) = List.range' k (n - k) ++ List.range' n m := by
  have joined := List.range'_append_1 (s := k) (m := n - k) (n := m)
  rw [Nat.add_sub_cancel' h] at joined
  rw [joined]
  congr 1
  omega

namespace NormalForm

/-- The pairs that a body of numbers is broken up into, by way of the tails. -/
def links : Nat → List Nat → List Nat → List PairRule
  | head, [left, right], [] => [⟨left, right, head⟩]
  | head, left :: rest, tail :: tails => ⟨left, tail, head⟩ :: links tail rest tails
  | _, _, _ => []

theorem links_of_short {head : Nat} {ids : List Nat} (short : ids.length < 2) : links head ids [] = [] := by
  match ids with
  | [] => rfl
  | [_] => rfl
  | _ :: _ :: _ =>
      simp only [List.length_cons] at short
      omega

theorem head_of_mem_links {head : Nat} {ids tails : List Nat} {r : PairRule}
    (member : r ∈ links head ids tails) : r.head = head ∨ r.head ∈ tails := by
  fun_induction links head ids tails with
  | case1 head left right =>
      rw [List.mem_singleton] at member
      exact .inl (congrArg PairRule.head member)
  | case2 head left rest tail tails ih =>
      cases member with
      | head => exact .inl rfl
      | tail _ later =>
          right
          cases ih later with
          | inl same => exact same ▸ List.mem_cons_self
          | inr below => exact List.mem_cons_of_mem _ below
  | case3 => cases member

/-- A rule has to be broken up, since it is neither a single symbol nor a pair of nonterminals. -/
def Splits : List Atom → Prop
  | [] | [_] | [.nonterminal _, .nonterminal _] => False
  | _ => True

theorem Splits.two_le {body : List Atom} (h : Splits body) : 2 ≤ body.length := by
  match body, h with
  | _ :: _ :: _, _ => simp

theorem terminal_mem_iff {label : String} {body : List Atom} :
    .terminal label ∈ body ↔ body = [.terminal label] ∨ Splits body ∧ .terminal label ∈ body := by
  match body with
  | [] => simp
  | [_] => simp [Splits, eq_comm]
  | [.nonterminal _, .nonterminal _] => simp
  | [.terminal _, _] | [_, .terminal _] | _ :: _ :: _ :: _ => simp [Splits]

/-- What one rule accounts for: the numbers in the places of its symbols, and its tails. -/
structure Share where
  head : Nat
  body : List Atom
  ids : List Nat
  tails : List Nat

structure Share.Fair (s : Share) (proxies : List (String × Nat)) : Prop where
  count : s.tails.length = s.body.length - 2
  stands : 2 ≤ s.body.length → List.Forall₂ (Atom.Numbered proxies) s.body s.ids
  short : s.body.length < 2 → s.ids = []

theorem Share.Fair.mono {s : Share} {before after : List (String × Nat)} (kept : before ⊆ after)
    (h : s.Fair before) : s.Fair after :=
  { h with stands := fun long => (h.stands long).imp fun _ _ => .mono kept }

/-- Every lexical rule is one of the given ones or that of a proxy, and every number beyond the
    nonterminals is a proxy or one of the tails. -/
structure Proxied (own : LexicalRule → Prop) (tails : List Nat) (form : NormalForm) : Prop where
  inside : form.userCount ≤ form.names.size
  lexical : ∀ r, r ∈ form.lexicals ↔ own r ∨ (r.label, r.head) ∈ form.proxies
  numbers : (form.proxies.map Prod.snd ++ tails).Perm
    (List.range' form.userCount (form.names.size - form.userCount))
  single : (form.proxies.map Prod.fst).Nodup

/-- The numbers stand for the symbols of the body, and only proxies were added for that. -/
structure Numbers (before : NormalForm) (body : List Atom) (ids : List Nat) (after : NormalForm) :
    Prop where
  userCount : after.userCount = before.userCount
  pairs : after.pairs = before.pairs
  units : after.units = before.units
  kept : before.proxies ⊆ after.proxies
  labels : ∀ label, label ∈ after.proxies.map Prod.fst ↔
    label ∈ before.proxies.map Prod.fst ∨ .terminal label ∈ body
  stands : List.Forall₂ (Atom.Numbered after.proxies) body ids

theorem Numbers.cons {a b c : NormalForm} {atom : Atom} {rest : List Atom} {id : Nat} {ids : List Nat}
    (h : a.Numbers [atom] [id] b) (k : b.Numbers rest ids c) :
    a.Numbers (atom :: rest) (id :: ids) c where
  userCount := k.userCount.trans h.userCount
  pairs := k.pairs.trans h.pairs
  units := k.units.trans h.units
  kept := List.Subset.trans h.kept k.kept
  labels := by
    intro label
    rw [k.labels, h.labels, List.mem_singleton, List.mem_cons, or_assoc]
  stands := by
    cases h.stands with
    | cons first _ => exact .cons (first.mono k.kept) k.stands

section Proxies

variable {own : LexicalRule → Prop} {tails : List Nat} {form : NormalForm}

theorem Proxied.addProxy (h : Proxied own tails form) {label : String} (name : String)
    (new : label ∉ form.proxies.map Prod.fst) :
    Proxied own tails
      { (form.addHelper name).2 with
        lexicals := ⟨label, form.names.size⟩ :: form.lexicals
        proxies := (label, form.names.size) :: form.proxies } where
  inside := by
    have := h.inside
    simp only [addHelper, Array.size_push]
    omega
  lexical := by
    intro r
    rw [List.mem_cons, List.mem_cons, h.lexical, or_left_comm]
    obtain ⟨label', head⟩ := r
    simp
  numbers := by
    simp only [addHelper, Array.size_push, List.map_cons, List.cons_append]
    rw [range'_extend h.inside 1]
    exact (List.perm_append_singleton form.names.size _).symm.trans (h.numbers.append_right _)
  single := List.nodup_cons.mpr ⟨new, h.single⟩

theorem Proxied.proxyFor (h : Proxied own tails form) (label : String) :
    Proxied own tails (form.proxyFor label).2 ∧
      form.Numbers [.terminal label] [(form.proxyFor label).1] (form.proxyFor label).2 := by
  simp only [NormalForm.proxyFor]
  split
  · rename_i id found
    obtain ⟨front, back, split, _⟩ := List.lookup_eq_some_iff.mp found
    have member : (label, id) ∈ form.proxies := by simp [split]
    refine ⟨h, rfl, rfl, rfl, List.Subset.refl _, fun other => ?_, .cons member .nil⟩
    rw [List.mem_singleton, Atom.terminal.injEq, or_iff_left_of_imp]
    rintro rfl
    exact List.mem_map_of_mem member
  · rename_i none
    have new : label ∉ form.proxies.map Prod.fst := by
      intro member
      obtain ⟨⟨_, id⟩, found, rfl⟩ := List.mem_map.mp member
      have differs := List.lookup_eq_none_iff.mp none _ found
      simp at differs
    refine ⟨h.addProxy _ new, rfl, rfl, rfl, List.subset_cons_self _ _, fun other => ?_,
      .cons List.mem_cons_self .nil⟩
    simp [addHelper, or_comm]

theorem Proxied.number (h : Proxied own tails form) (body : List Atom) :
    Proxied own tails (form.number body).2 ∧
      form.Numbers body (form.number body).1 (form.number body).2 := by
  induction body generalizing form with
  | nil => exact ⟨h, rfl, rfl, rfl, List.Subset.refl _, by simp [NormalForm.number], .nil⟩
  | cons atom rest ih =>
      cases atom with
      | nonterminal id =>
          obtain ⟨proxied, numbers⟩ := ih h
          have first : form.Numbers [.nonterminal id] [id] form :=
            ⟨rfl, rfl, rfl, List.Subset.refl _, by simp, .cons rfl .nil⟩
          exact ⟨proxied, first.cons numbers⟩
      | terminal label =>
          obtain ⟨proxied, first⟩ := h.proxyFor label
          obtain ⟨proxied, numbers⟩ := ih proxied
          exact ⟨proxied, first.cons numbers⟩

end Proxies

/-- The links of a body were added, by way of new numbers, and nothing else. -/
structure Chains (before : NormalForm) (head : Nat) (ids : List Nat) (after : NormalForm) : Prop where
  userCount : after.userCount = before.userCount
  size : after.names.size = before.names.size + (ids.length - 2)
  lexicals : after.lexicals = before.lexicals
  units : after.units = before.units
  proxies : after.proxies = before.proxies
  pairs : ∀ r, r ∈ after.pairs ↔ r ∈ before.pairs ∨
    r ∈ links head ids (List.range' before.names.size (ids.length - 2))

theorem chains_addChain (form : NormalForm) (owner : String) (head : Nat) (ids : List Nat) :
    form.Chains head ids (form.addChain owner head ids) := by
  induction ids generalizing form head with
  | nil => exact ⟨rfl, rfl, rfl, rfl, rfl, by simp [addChain, links]⟩
  | cons left rest ih =>
      match rest with
      | [] => exact ⟨rfl, rfl, rfl, rfl, rfl, by simp [addChain, links]⟩
      | [right] => exact ⟨rfl, rfl, rfl, rfl, rfl, by simp [addChain, links, or_comm]⟩
      | right :: next :: rest =>
          have later := ih
            { (form.addHelper (owner ++ "#" ++ toString form.names.size)).2 with
              pairs := ⟨left, form.names.size, head⟩ :: form.pairs } form.names.size
          have one : (left :: right :: next :: rest).length - 2 = (right :: next :: rest).length - 2 + 1 := by
            simp
          refine ⟨later.userCount, ?_, later.lexicals, later.units, later.proxies, fun r => ?_⟩
          · have size := later.size
            simp only [addHelper, Array.size_push] at size
            rw [one, Nat.add_comm _ 1, ← Nat.add_assoc, ← size]
            rfl
          · have pairs := later.pairs r
            simp only [addHelper, Array.size_push, List.mem_cons] at pairs
            rw [one, List.range'_succ, links, List.mem_cons, ← or_assoc, or_comm (b := r = _)]
            exact pairs

/-- The shares are those of all rules so far, and together with the proxies they account for
    every rule and every number of the form. -/
structure Ledger (shares : List Share) (form : NormalForm) : Prop where
  proxied : Proxied (fun r => ∃ s ∈ shares, s.body = [.terminal r.label] ∧ s.head = r.head)
    (shares.flatMap Share.tails) form
  unit : ∀ r, r ∈ form.units ↔ ∃ s ∈ shares, s.body = [.nonterminal r.child] ∧ s.head = r.parent
  pair : ∀ r, r ∈ form.pairs ↔ ∃ s ∈ shares, r ∈ links s.head s.ids s.tails
  fair : ∀ s ∈ shares, s.Fair form.proxies
  labels : ∀ label, label ∈ form.proxies.map Prod.fst ↔
    ∃ s ∈ shares, Splits s.body ∧ .terminal label ∈ s.body

namespace Ledger

variable {shares : List Share} {form : NormalForm}

theorem ofNames (names : List String) : Ledger [] (ofNames names) where
  proxied := ⟨by simp [NormalForm.ofNames], by simp [NormalForm.ofNames], by simp [NormalForm.ofNames],
    List.nodup_nil⟩
  unit := by simp [NormalForm.ofNames]
  pair := by simp [NormalForm.ofNames]
  fair := by simp
  labels := by simp [NormalForm.ofNames]

theorem addPlain (h : Ledger shares form) {s : Share} (fair : s.Fair form.proxies) (plain : s.tails = [])
    (whole : ¬ Splits s.body) {lexicals : List LexicalRule} {pairs : List PairRule} {units : List UnitRule}
    (lexical : ∀ r, r ∈ lexicals ↔ r ∈ form.lexicals ∨ s.body = [.terminal r.label] ∧ s.head = r.head)
    (unit : ∀ r, r ∈ units ↔ r ∈ form.units ∨ s.body = [.nonterminal r.child] ∧ s.head = r.parent)
    (pair : ∀ r, r ∈ pairs ↔ r ∈ form.pairs ∨ r ∈ links s.head s.ids s.tails) :
    Ledger (shares ++ [s]) { form with lexicals, pairs, units } where
  proxied :=
    { inside := h.proxied.inside
      lexical := by
        intro r
        rw [lexical, h.proxied.lexical, exists_mem_snoc, or_right_comm]
      numbers := by simpa [plain] using h.proxied.numbers
      single := h.proxied.single }
  unit := by
    intro r
    rw [unit, h.unit, exists_mem_snoc]
  pair := by
    intro r
    rw [pair, h.pair, exists_mem_snoc]
  fair := List.forall_mem_append.mpr ⟨h.fair, List.forall_mem_singleton.mpr fair⟩
  labels := by
    intro label
    rw [h.labels, exists_mem_snoc]
    exact (or_iff_left fun split => whole split.1).symm

/-- A rule that is broken up gets proxies for its terminals and tails of its own. -/
theorem addSplit (h : Ledger shares form) {middle after : NormalForm} {head : Nat} {body : List Atom}
    {ids : List Nat} (split : Splits body)
    (proxied : Proxied (fun r => ∃ s ∈ shares, s.body = [.terminal r.label] ∧ s.head = r.head)
      (shares.flatMap Share.tails) middle)
    (numbers : form.Numbers body ids middle) (chains : middle.Chains head ids after) :
    Ledger (shares ++ [⟨head, body, ids, List.range' middle.names.size (ids.length - 2)⟩]) after where
  proxied :=
    { inside := by
        rw [chains.userCount, chains.size]
        exact Nat.le_add_right_of_le proxied.inside
      lexical := by
        intro r
        have longer : body ≠ [.terminal r.label] := by
          rintro rfl
          exact split
        rw [chains.lexicals, chains.proxies, proxied.lexical, exists_mem_snoc]
        exact or_congr_left (or_iff_left fun single => longer single.1).symm
      numbers := by
        rw [chains.userCount, chains.size, chains.proxies, range'_extend proxied.inside,
          List.flatMap_append, List.flatMap_singleton, ← List.append_assoc]
        exact proxied.numbers.append_right _
      single := chains.proxies ▸ proxied.single }
  unit := by
    intro r
    have longer : body ≠ [.nonterminal r.child] := by
      rintro rfl
      exact split
    rw [chains.units, numbers.units, h.unit, exists_mem_snoc, or_iff_left fun single => longer single.1]
  pair := by
    intro r
    rw [chains.pairs, numbers.pairs, h.pair, exists_mem_snoc]
  fair := by
    rw [chains.proxies]
    have length := numbers.stands.length_eq
    refine List.forall_mem_append.mpr ⟨fun s member => (h.fair s member).mono numbers.kept, ?_⟩
    refine List.forall_mem_singleton.mpr ⟨?_, fun _ => numbers.stands, fun short => ?_⟩
    · rw [List.length_range', length]
    · exact absurd short (Nat.not_lt.mpr split.two_le)
  labels := by
    intro label
    rw [chains.proxies, numbers.labels, h.labels, exists_mem_snoc]
    exact or_congr_right (and_iff_right split).symm

theorem addRule (h : Ledger shares form) (head : Nat) (body : List Atom) :
    ∃ s : Share, s.head = head ∧ s.body = body ∧ Ledger (shares ++ [s]) (form.addRule head body) := by
  unfold NormalForm.addRule
  split
  · refine ⟨⟨head, [], [], []⟩, rfl, rfl, h.addPlain ⟨rfl, by simp, fun _ => rfl⟩ rfl id ?_ ?_ ?_⟩
    all_goals simp [links]
  · rename_i label
    refine ⟨⟨head, [.terminal label], [], []⟩, rfl, rfl,
      h.addPlain ⟨rfl, by simp, fun _ => rfl⟩ rfl id ?_ ?_ ?_⟩
    · rintro ⟨other, id⟩
      simp [or_comm, eq_comm]
    all_goals simp [links]
  · rename_i child
    refine ⟨⟨head, [.nonterminal child], [], []⟩, rfl, rfl,
      h.addPlain ⟨rfl, by simp, fun _ => rfl⟩ rfl id ?_ ?_ ?_⟩
    · simp
    · rintro ⟨parent, id⟩
      simp [or_comm, and_comm, eq_comm]
    · simp [links]
  · rename_i left right
    have fair : Share.Fair ⟨head, [.nonterminal left, .nonterminal right], [left, right], []⟩ form.proxies :=
      ⟨rfl, fun _ => .cons rfl (.cons rfl .nil), by simp⟩
    refine ⟨_, rfl, rfl, h.addPlain fair rfl id ?_ ?_ ?_⟩
    · simp
    · simp
    · simp [links, or_comm]
  · rename_i empty single unit pair
    have split : Splits body := by
      match body with
      | [] => exact empty rfl
      | [.terminal label] => exact single label rfl
      | [.nonterminal child] => exact unit child rfl
      | [.nonterminal left, .nonterminal right] => exact pair left right rfl
      | [.terminal _, _] | [_, .terminal _] | _ :: _ :: _ :: _ => simp [Splits]
    obtain ⟨proxied, numbers⟩ := h.proxied.number body
    exact ⟨_, rfl, rfl, h.addSplit split proxied numbers (chains_addChain _ _ head _)⟩

/-- The share is that of the rule. -/
def Belongs (g : Grammar) (p : Production) (s : Share) : Prop :=
  s.head = g.nonterminals.idxOf p.nonterminal ∧ s.body = atoms g.nonterminals p.body

theorem addProductions {g : Grammar} (h : Ledger shares form) (listed : List Production) :
    ∃ added : List (Production × Share), added.map Prod.fst = listed ∧
      (∀ o ∈ added, Belongs g o.1 o.2) ∧
      Ledger (shares ++ added.map Prod.snd) (listed.foldl (addProduction g) form) := by
  induction listed generalizing shares form with
  | nil => exact ⟨[], rfl, by simp, by rwa [List.map_nil, List.append_nil]⟩
  | cons p rest ih =>
      obtain ⟨s, head, body, first⟩ :=
        h.addRule (g.nonterminals.idxOf p.nonterminal) (atoms g.nonterminals p.body)
      obtain ⟨added, listed, belong, ledger⟩ := ih first
      refine ⟨(p, s) :: added, congrArg (p :: ·) listed, List.forall_mem_cons.mpr ⟨⟨head, body⟩, belong⟩, ?_⟩
      rwa [List.map_cons, List.append_cons]

end Ledger

/-- Every rule of a grammar has its share in the normal form, in the order of the listing. -/
theorem ofGrammar_ledger (g : Grammar) :
    ∃ owned : List (Production × Share), owned.map Prod.fst = g.listing ∧
      (∀ o ∈ owned, Ledger.Belongs g o.1 o.2) ∧ Ledger (owned.map Prod.snd) (ofGrammar g) :=
  (Ledger.ofNames g.nonterminals).addProductions g.listing

namespace Ledger

variable {shares : List Share} {form : NormalForm}

/-- The numbers beyond the nonterminals are the proxies and the tails. -/
theorem mem_helpers (h : Ledger shares form) {id : Nat} :
    id ∈ form.proxies.map Prod.snd ++ shares.flatMap Share.tails ↔
      form.userCount ≤ id ∧ id < form.names.size := by
  rw [h.proxied.numbers.mem_iff, List.mem_range'_1, Nat.add_sub_cancel' h.proxied.inside]

theorem nodup_helpers (h : Ledger shares form) :
    (form.proxies.map Prod.snd ++ shares.flatMap Share.tails).Nodup :=
  h.proxied.numbers.nodup_iff.mpr List.nodup_range'

theorem exists_lexical_iff (h : Ledger shares form) {label : String} :
    (∃ r ∈ form.lexicals, r.label = label) ↔ ∃ s ∈ shares, .terminal label ∈ s.body := by
  constructor
  · rintro ⟨r, member, rfl⟩
    cases (h.proxied.lexical r).mp member with
    | inl own =>
        obtain ⟨s, inside, body, _⟩ := own
        exact ⟨s, inside, body ▸ List.mem_singleton_self _⟩
    | inr proxy =>
        obtain ⟨s, inside, _, terminal⟩ := (h.labels r.label).mp (List.mem_map_of_mem proxy)
        exact ⟨s, inside, terminal⟩
  · rintro ⟨s, inside, terminal⟩
    cases terminal_mem_iff.mp terminal with
    | inl body => exact ⟨⟨label, s.head⟩, (h.proxied.lexical _).mpr (.inl ⟨s, inside, body, rfl⟩), rfl⟩
    | inr split =>
        obtain ⟨⟨_, id⟩, proxy, rfl⟩ := List.mem_map.mp ((h.labels label).mpr ⟨s, inside, split⟩)
        exact ⟨⟨_, id⟩, (h.proxied.lexical _).mpr (.inr proxy), rfl⟩

theorem label_unique (h : Ledger shares form) {label other : String} {id : Nat}
    (first : (label, id) ∈ form.proxies) (second : (other, id) ∈ form.proxies) : label = other := by
  have distinct := (List.nodup_append.mp h.nodup_helpers).1
  have same := List.inj_on_of_nodup_map distinct first second rfl
  exact congrArg Prod.fst same

theorem not_tail_of_proxy (h : Ledger shares form) {label : String} {id : Nat}
    (proxy : (label, id) ∈ form.proxies) : id ∉ shares.flatMap Share.tails := by
  intro tail
  have apart := (List.nodup_append.mp h.nodup_helpers).2.2
  exact apart id (List.mem_map_of_mem proxy) id tail rfl

variable (users : ∀ s ∈ shares, s.head < form.userCount)

include users

theorem head_ne_helper (h : Ledger shares form) {id : Nat}
    (helper : id ∈ form.proxies.map Prod.snd ++ shares.flatMap Share.tails) :
    ∀ s ∈ shares, s.head ≠ id := by
  rintro s member rfl
  exact Nat.not_lt.mpr (h.mem_helpers.mp helper).1 (users s member)

/-- A proxy derives its own terminal alone and nothing else. -/
theorem derives_proxy (h : Ledger shares form) {label : String} {id : Nat} {word : List String}
    (proxy : (label, id) ∈ form.proxies) (derives : form.Derives id word) : word = [label] := by
  have user := h.head_ne_helper users (List.mem_append_left _ (List.mem_map_of_mem proxy))
  cases derives with
  | lexical rule =>
      cases (h.proxied.lexical _).mp rule with
      | inl own =>
          obtain ⟨s, member, _, head⟩ := own
          exact absurd head (user s member)
      | inr other => rw [h.label_unique proxy other]
  | unit rule =>
      obtain ⟨s, member, _, head⟩ := (h.unit _).mp rule
      exact absurd head (user s member)
  | pair rule =>
      obtain ⟨s, member, link⟩ := (h.pair _).mp rule
      cases head_of_mem_links link with
      | inl head => exact absurd head.symm (user s member)
      | inr tail => exact absurd (List.mem_flatMap.mpr ⟨s, member, tail⟩) (h.not_tail_of_proxy proxy)

/-- A tail derives no word of a single label. -/
theorem derives_tail (h : Ledger shares form) {id : Nat} {word : List String}
    (tail : id ∈ shares.flatMap Share.tails) (derives : form.Derives id word) : 1 < word.length := by
  have user := h.head_ne_helper users (List.mem_append_right _ tail)
  cases derives with
  | lexical rule =>
      cases (h.proxied.lexical _).mp rule with
      | inl own =>
          obtain ⟨s, member, _, head⟩ := own
          exact absurd head (user s member)
      | inr proxy => exact absurd tail (h.not_tail_of_proxy proxy)
  | unit rule =>
      obtain ⟨s, member, _, head⟩ := (h.unit _).mp rule
      exact absurd head (user s member)
  | pair _ front back =>
      have := List.length_pos_iff.mpr front.ne_nil
      have := List.length_pos_iff.mpr back.ne_nil
      rw [List.length_append]
      omega

end Ledger

theorem Ledger.Belongs.head_lt {g : Grammar} {p : Production} {s : Share} (h : Ledger.Belongs g p s)
    (listed : p ∈ g.listing) : s.head < g.nonterminals.length := by
  have member := Grammar.mem_of_listed listed
  rw [h.1]
  exact Grammar.idxOf_lt member

/-- Helpers derive little: a proxy its terminal, and a tail nothing short. -/
theorem helper_derives {g : Grammar} {id : Nat} {word : List String} (derives : (ofGrammar g).Derives id word) :
    (∀ label, (label, id) ∈ (ofGrammar g).proxies → word = [label]) ∧
    ((ofGrammar g).userCount ≤ id → id < (ofGrammar g).names.size →
      id ∉ (ofGrammar g).proxies.map Prod.snd → 1 < word.length) := by
  obtain ⟨of, faithful, _⟩ := ofGrammar_faithful g
  obtain ⟨owned, rules, belongs, ledger⟩ := ofGrammar_ledger g
  have users : ∀ s ∈ owned.map Prod.snd, s.head < (ofGrammar g).userCount := by
    intro s member
    obtain ⟨o, inside, rfl⟩ := List.mem_map.mp member
    rw [faithful.userCount]
    exact (belongs o inside).head_lt (rules ▸ List.mem_map_of_mem inside)
  refine ⟨fun label proxy => ledger.derives_proxy users proxy derives, fun beyond inside other => ?_⟩
  have helper := ledger.mem_helpers.mpr ⟨beyond, inside⟩
  exact ledger.derives_tail users ((List.mem_append.mp helper).resolve_left other) derives

end NormalForm

end WordWalk
