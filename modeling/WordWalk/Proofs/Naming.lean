import WordWalk.Proofs.Cells
import WordWalk.Proofs.Numerals
import WordWalk.Proofs.UnitRules

/-! # Numbers and names

The nonterminals of a grammar have the first numbers, in the order of their names, and are
found by name; helpers have the numbers after them and are not. Names of helpers may agree with
names of nonterminals, but never with each other: the name of a proxy ends in a bracket and
that of a tail in its own number, and no digit is a bracket or the sign in front of the number.
-/

namespace WordWalk

/-- What follows the last occurrence of a separator is known from the whole. -/
theorem eq_of_append_cons {α : Type} {a b : List α} {x : α} {ds es : List α} (hd : x ∉ ds) (he : x ∉ es)
    (same : a ++ x :: ds = b ++ x :: es) : ds = es := by
  -- If one separator came first, the other one would be among what follows it.
  rcases List.append_eq_append_iff.mp same with ⟨c, _, rest⟩ | ⟨c, _, rest⟩
  · cases c with
    | nil => exact (List.cons.inj rest).2
    | cons y c =>
        rw [(List.cons.inj rest).2] at hd
        exact absurd (List.mem_append_right _ List.mem_cons_self) hd
  · cases c with
    | nil => exact (List.cons.inj rest).2.symm
    | cons y c =>
        rw [(List.cons.inj rest).2] at he
        exact absurd (List.mem_append_right _ List.mem_cons_self) he

theorem number_eq_of_text {owner other : String} {n m : Nat}
    (same : owner ++ "#" ++ toString n = other ++ "#" ++ toString m) : n = m := by
  have sign {k : Nat} : '#' ∉ (toString k).toList := fun member => nomatch isDigit_of_mem_text member
  have chars : owner.toList ++ '#' :: (toString n).toList = other.toList ++ '#' :: (toString m).toList := by
    simpa using congrArg String.toList same
  exact number_text_inj.mp (String.toList_inj.mp (eq_of_append_cons sign sign chars))

theorem tail_ne_proxy {owner label : String} {n : Nat} : owner ++ "#" ++ toString n ≠ "<" ++ label ++ ">" := by
  intro same
  have chars : (owner.toList ++ ['#']) ++ (toString n).toList = ('<' :: label.toList) ++ ['>'] := by
    simpa using congrArg String.toList same
  have last : (toString n).toList.getLast? = some '>' := by
    rw [← List.getLast?_append_of_ne_nil _ (number_text_ne_nil n), chars, List.getLast?_concat]
  exact nomatch isDigit_of_mem_text (List.mem_of_getLast? last)

namespace NormalForm

/-- What a helper is called: a proxy by its terminal, a tail by the nonterminal whose rule it belongs
    to and by its number. -/
inductive HelperName (g : Grammar) (form : NormalForm) (id : Nat) : String → Prop
  | proxy {label} (stands : (label, id) ∈ form.proxies) : HelperName g form id ("<" ++ label ++ ">")
  | tail {owner} (user : owner ∈ g) : HelperName g form id (owner ++ "#" ++ toString id)

def Named (g : Grammar) (form : NormalForm) : Prop :=
  ∀ id name, form.userCount ≤ id → form.names[id]? = some name → form.HelperName g id name

variable {g : Grammar} {form after : NormalForm} {of : Nat → List String}

theorem HelperName.mono {id : Nat} {name : String} (kept : form.proxies ⊆ after.proxies)
    (h : form.HelperName g id name) : after.HelperName g id name := by
  cases h with
  | proxy stands => exact .proxy (kept stands)
  | tail user => exact .tail user

/-- Two helpers with one name are one helper. -/
theorem HelperName.unique {id other : Nat} {name : String} (single : (form.proxies.map Prod.fst).Nodup)
    (h : form.HelperName g id name) (k : form.HelperName g other name) : id = other := by
  generalize called : name = shown at k
  cases h with
  | @proxy label stands =>
      cases k with
      | proxy also =>
          obtain rfl := (String.append_right_inj "<").mp ((String.append_left_inj ">").mp called)
          -- a terminal has one proxy, however often it occurs
          rw [← lookup_eq_some_iff single] at stands also
          exact Option.some.inj (stands.symm.trans also)
      | tail => exact absurd called.symm tail_ne_proxy
  | tail =>
      cases k with
      | proxy => exact absurd called tail_ne_proxy
      | tail => exact number_eq_of_text called

theorem Faithful.getElem?_user (h : form.Faithful g of) {id : Nat} (user : id < form.userCount) :
    form.names[id]? = g.nonterminals[id]? := by
  obtain ⟨rest, names⟩ := h.users
  rw [← Array.getElem?_toList, ← names, List.getElem?_append_left (h.userCount ▸ user)]

theorem named_ofNames (g : Grammar) : Named g (ofNames g.nonterminals) := by
  intro id name beyond found
  obtain ⟨inside, _⟩ := Array.getElem?_eq_some_iff.mp found
  exact absurd inside (Nat.not_lt.mpr (by simpa [ofNames] using beyond))

/-- Rules may be added freely. -/
theorem Named.congr (h : Named g form) (names : after.names = form.names)
    (userCount : after.userCount = form.userCount) (proxies : after.proxies = form.proxies) : Named g after := by
  intro id name beyond found
  exact (h id name (userCount ▸ beyond) (names ▸ found)).mono (proxies ▸ List.Subset.refl _)

theorem Named.push (h : Named g form) {name : String} (names : after.names = form.names.push name)
    (userCount : after.userCount = form.userCount) (kept : form.proxies ⊆ after.proxies)
    (new : after.HelperName g form.names.size name) : Named g after := by
  intro id shown beyond found
  rw [names, Array.getElem?_push] at found
  split at found
  · rename_i last
    rw [last, ← Option.some.inj found]
    exact new
  · exact (h id shown (userCount ▸ beyond) found).mono kept

theorem Named.proxyFor (h : Named g form) (label : String) : Named g (form.proxyFor label).2 := by
  simp only [NormalForm.proxyFor]
  split
  · exact h
  · exact h.push rfl rfl (List.subset_cons_self _ _) (.proxy List.mem_cons_self)

theorem Named.number (h : Named g form) (body : List Atom) : Named g (form.number body).2 := by
  induction body generalizing form with
  | nil => exact h
  | cons atom rest ih =>
      cases atom with
      | nonterminal => exact ih h
      | terminal label => exact ih (h.proxyFor label)

theorem Named.addChain (h : Named g form) {owner : String} (user : owner ∈ g) (head : Nat) (ids : List Nat) :
    Named g (form.addChain owner head ids) := by
  induction ids generalizing form head with
  | nil => exact h
  | cons left rest ih =>
      match rest with
      | [] => exact h
      | [right] => exact h.congr rfl rfl rfl
      | right :: next :: rest =>
          have longer : Named g
              { (form.addHelper (owner ++ "#" ++ toString form.names.size)).2 with
                pairs := ⟨left, form.names.size, head⟩ :: form.pairs } :=
            h.push rfl rfl (List.Subset.refl _) (.tail user)
          exact ih longer _

theorem Named.addRule (h : Named g form) (faithful : form.Faithful g of) {head : Nat}
    (user : head < form.userCount) {body : List Atom} (fits : ∀ atom ∈ body, atom.Fits g form.userCount) :
    Named g (form.addRule head body) := by
  unfold NormalForm.addRule
  split
  · exact h
  · exact h.congr rfl rfl rfl
  · exact h.congr rfl rfl rfl
  · exact h.congr rfl rfl rfl
  · obtain ⟨of', grown, _⟩ := faithful.number fits
    refine (h.number body).addChain ?_ head _
    have known : head < (form.number body).2.userCount := grown.extension.userCount ▸ user
    have inside : head < g.nonterminals.length := faithful.userCount ▸ user
    rw [Array.getD_eq_getD_getElem?, grown.faithful.getElem?_user known, List.getElem?_eq_getElem inside,
      Option.getD_some]
    exact Grammar.mem_nonterminals.mp (List.getElem_mem inside)

theorem Named.addProductions (h : Named g form) (faithful : form.Faithful g of) {listed : List Production}
    (known : listed ⊆ g.listing) : Named g (listed.foldl (addProduction g) form) := by
  induction listed generalizing form of with
  | nil => exact h
  | cons p rest ih =>
      have listed : p ∈ g.listing := known List.mem_cons_self
      have user : g.nonterminals.idxOf p.nonterminal < form.userCount :=
        faithful.number_lt (Grammar.mem_of_listed listed)
      have named : Named g (addProduction g form p) :=
        h.addRule faithful user (faithful.userCount ▸ atoms_fit p.body)
      obtain ⟨of', grown⟩ := faithful.addProduction listed
      exact ih named grown.faithful (List.subset_of_cons_subset known)

theorem ofGrammar_named (g : Grammar) : Named g (ofGrammar g) :=
  (named_ofNames g).addProductions (faithful_ofNames g) (List.Subset.refl _)

end NormalForm

theorem Grammar.nonterminals_sorted (g : Grammar) : g.nonterminals.Pairwise (· < ·) := by
  have sorted : g.nonterminals.Pairwise (fun a b => compare a b = .lt) := Std.ExtTreeMap.ordered_keys
  exact sorted.imp fun less => compareOfLessAndEq_eq_lt.mp less

namespace Index

/-- Numbers and names of an index agree with each other and with the grammar. -/
structure Consistent (index : Index) (g : Grammar) : Prop where
  user : ∀ id < index.form.userCount, ∃ name ∈ g, index.nameOf? id = some name ∧ index.idOf? name = some id
  numbered : ∀ name ∈ g, ∃ id < index.form.userCount, index.nameOf? id = some name
  ascending : ∀ id other name next, id < other → other < index.form.userCount →
    index.nameOf? id = some name → index.nameOf? other = some next → name < next
  /-- Only nonterminals of the grammar are found by name, also when a helper has the same one. -/
  found : ∀ name id, index.idOf? name = some id →
    id < index.form.userCount ∧ index.isHelper id = false ∧ index.nameOf? id = some name
  start : index.idOf? startSymbol = some index.start
  helper : ∀ id, index.isHelper id = true ↔ index.form.userCount ≤ id ∧ id < index.nonterminalCount
  named : ∀ id, index.isHelper id = true → ∃ name, index.nameOf? id = some name ∧ index.form.HelperName g id name
  distinct : ∀ id other name, index.isHelper id = true → index.isHelper other = true →
    index.nameOf? id = some name → index.nameOf? other = some name → id = other
  labels : ∀ label producers, index.producersOfLabel? label = some producers →
    ∀ id ∈ producers, id < index.nonterminalCount
  pairs : ∀ left right producers, index.producersOfPair? left right = some producers →
    left < index.nonterminalCount ∧ right < index.nonterminalCount ∧
      ∀ id ∈ producers, id < index.nonterminalCount
  closures : ∀ id closure, index.unitClosure? id = some closure →
    id < index.nonterminalCount ∧ ∀ parent ∈ closure, parent < index.nonterminalCount
  /-- No member of a cell is left out when the cell is told by names. -/
  cells : ∀ word i j, i ≤ j → j < word.length →
    (index.namesOf ((Chart.ofWord index word).cell i (j - i)).toList).map some =
      ((Chart.ofWord index word).cell i (j - i)).toList.map index.nameOf?

variable {g : Grammar} {index : Index} {policy : Policy}

theorem nameOf?_user {id : Nat} (user : id < (ofGrammar g).form.userCount) :
    (ofGrammar g).nameOf? id = g.nonterminals[id]? := by
  obtain ⟨of, faithful, _⟩ := NormalForm.ofGrammar_faithful g
  exact faithful.getElem?_user user

theorem isSome_nameOf? {index : Index} {id : Nat} : (index.nameOf? id).isSome ↔ id < index.nonterminalCount := by
  simp [nameOf?, nonterminalCount]

theorem number_of_mem {name : String} (member : name ∈ g) :
    g.nonterminals.idxOf name < (ofGrammar g).form.userCount ∧
      (ofGrammar g).nameOf? (g.nonterminals.idxOf name) = some name := by
  obtain ⟨of, faithful, _⟩ := NormalForm.ofGrammar_faithful g
  have inside := Grammar.idxOf_lt member
  have user : g.nonterminals.idxOf name < (ofGrammar g).form.userCount := faithful.number_lt member
  refine ⟨user, ?_⟩
  rw [nameOf?_user user, List.getElem?_eq_getElem inside, List.getElem_idxOf inside]

theorem idOf?_eq_some {name : String} {id : Nat} (found : (ofGrammar g).idOf? name = some id) :
    name ∈ g ∧ id = g.nonterminals.idxOf name := by
  rw [idOf?_ofGrammar] at found
  by_cases member : name ∈ g
  · rw [NormalForm.idxOf?_nonterminal member] at found
    exact ⟨member, (Option.some.inj found).symm⟩
  · rw [NormalForm.idxOf?_terminal member] at found
    cases found

theorem name_of_user {id : Nat} (user : id < (ofGrammar g).form.userCount) :
    ∃ name ∈ g, (ofGrammar g).nameOf? id = some name ∧ (ofGrammar g).idOf? name = some id := by
  obtain ⟨of, faithful, _⟩ := NormalForm.ofGrammar_faithful g
  have inside : id < g.nonterminals.length := faithful.userCount ▸ user
  have member := Grammar.mem_nonterminals.mp (List.getElem_mem inside)
  have distinct : g.nonterminals.Nodup := g.nonterminals_sorted.imp fun less => by
    rintro rfl
    exact String.lt_irrefl _ less
  refine ⟨g.nonterminals[id], member, ?_, ?_⟩
  · rw [nameOf?_user user, List.getElem?_eq_getElem inside]
  · rw [idOf?_nonterminal member, distinct.idxOf_getElem]

theorem name_of_helper {id : Nat} (helper : (ofGrammar g).isHelper id = true) :
    ∃ name, (ofGrammar g).nameOf? id = some name ∧ (ofGrammar g).form.HelperName g id name := by
  obtain ⟨beyond, inside⟩ := isHelper_iff.mp helper
  obtain ⟨name, found⟩ := Option.isSome_iff_exists.mp (isSome_nameOf?.mpr inside)
  exact ⟨name, found, NormalForm.ofGrammar_named g id name beyond found⟩

/-- Nonterminals are numbered in the order of their names and found by them, and helpers have
    the remaining numbers. No number in the tables or in a cell is unknown, and no two helpers share
    a name, whatever the names in the grammar look like. -/
theorem names_consistent (built : build policy g = .ok index) : index.Consistent g := by
  obtain ⟨start, _, rfl⟩ := build_ok built
  obtain ⟨of, faithful, _⟩ := NormalForm.ofGrammar_faithful g
  obtain ⟨owned, _, _, ledger⟩ := NormalForm.ofGrammar_ledger g
  have bounded := faithful.bounded
  constructor
  case user => exact fun id => name_of_user
  case numbered => exact fun name member => ⟨_, number_of_mem member⟩
  case ascending =>
    intro id other name next before user found follows
    rw [nameOf?_user (before.trans user)] at found
    rw [nameOf?_user user] at follows
    obtain ⟨inside, rfl⟩ := List.getElem?_eq_some_iff.mp found
    obtain ⟨further, rfl⟩ := List.getElem?_eq_some_iff.mp follows
    exact List.pairwise_iff_getElem.mp g.nonterminals_sorted id other inside further before
  case found =>
    intro name id found
    obtain ⟨member, rfl⟩ := idOf?_eq_some found
    obtain ⟨user, called⟩ := number_of_mem member
    refine ⟨user, Bool.eq_false_iff.mpr fun helper => ?_, called⟩
    exact absurd (isHelper_iff.mp helper).1 (Nat.not_le.mpr user)
  case start => exact idOf?_nonterminal start
  case helper => exact fun id => isHelper_iff
  case named => exact fun id => name_of_helper
  case distinct =>
    intro id other name helper another found also
    obtain ⟨_, called, shape⟩ := name_of_helper helper
    obtain ⟨_, named, form⟩ := name_of_helper another
    obtain rfl := Option.some.inj (called.symm.trans found)
    obtain rfl := Option.some.inj (named.symm.trans also)
    exact shape.unique ledger.proxied.single form
  case labels =>
    intro label producers entry id member
    have known : id ∈ ((ofGrammar g).producersOfLabel? label).getD ∅ := by rwa [entry]
    obtain ⟨r, rule, _, led⟩ := (mem_producersOfLabel bounded).mp known
    exact faithful.leads_lt (faithful.lexical r rule).1 led
  case pairs =>
    intro left right producers entry
    obtain ⟨r, rule, rfl, rfl⟩ := isSome_producersOfPair.mp (Option.isSome_of_eq_some entry)
    obtain ⟨_, first, second, _⟩ := faithful.pair r rule
    refine ⟨first, second, fun id member => ?_⟩
    have known : id ∈ ((ofGrammar g).producersOfPair? r.left r.right).getD ∅ := by rwa [entry]
    obtain ⟨s, also, _, _, led⟩ := (mem_producersOfPair bounded).mp known
    exact faithful.leads_lt (faithful.pair s also).1 led
  case closures =>
    intro id closure entry
    have inside : id < (ofGrammar g).nonterminalCount := by
      have kept := isSome_unitClosure.mp (Option.isSome_of_eq_some entry)
      rwa [ofGrammar, size_closures] at kept
    rw [unitClosure?_ofGrammar inside] at entry
    cases entry
    exact ⟨inside, fun parent member => faithful.leads_lt inside (NormalForm.mem_ancestors.mp member)⟩
  case cells =>
    intro word i j ordered inside
    refine map_some_namesOf fun id member => ?_
    have derives := (Chart.mem_cell_ofWord (by omega)).mp (Std.TreeSet.mem_toList.mp member)
    exact faithful.known ((derives_iff bounded).mp derives)

end Index

theorem names_consistent_nested : ∃ index, Index.build .normalize .nested = .ok index ∧
    index.nameOf? 0 = some "<a>" ∧ index.nameOf? 4 = some "<a>" ∧ index.idOf? "<a>" = some 0 ∧
    index.isHelper 4 = true ∧ ∀ id, index.isHelper id = true → index.nameOf? id = some "<a>" → id = 4 := by
  have built : Index.build .normalize .nested = .ok (.ofGrammar .nested) :=
    Index.build_of_faultless (by decide +kernel)
  have helper : (Index.ofGrammar .nested).isHelper 4 = true := by decide +kernel
  have called : (Index.ofGrammar .nested).nameOf? 4 = some "<a>" := by decide +kernel
  refine ⟨_, built, by decide +kernel, called, by decide +kernel, helper, fun id another also => ?_⟩
  exact (Index.names_consistent built).distinct id 4 "<a>" another helper also called

end WordWalk
