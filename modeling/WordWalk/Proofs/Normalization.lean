import Mathlib.Logic.Function.Basic
import WordWalk.Proofs.BinaryRules
import WordWalk.Proofs.Derivation

/-! # Normal form keeps the language

While a grammar is put into normal form every number stands for a sentence: a nonterminal
for its name, a proxy for its terminal, the tail of a long rule for the rest of the body.
No rule ever lets a number derive what its sentence does not derive in the grammar, and
the body of every rule added so far is spelled out by the rules in normal form.
-/

namespace WordWalk

namespace Atom

def sentence (of : Nat → List String) : Atom → List String
  | .terminal label => [label]
  | .nonterminal id => of id

/-- The symbol belongs to a grammar with the given number of nonterminals. -/
def Fits (g : Grammar) (userCount : Nat) : Atom → Prop
  | .terminal label => label ∉ g
  | .nonterminal id => id < userCount

end Atom

namespace NormalForm

/-- Every number stands for a sentence, and no rule derives more than the grammar does. -/
structure Faithful (g : Grammar) (form : NormalForm) (of : Nat → List String) : Prop where
  users : g.nonterminals <+: form.names.toList
  userCount : form.userCount = g.nonterminals.length
  user : ∀ {id name}, g.nonterminals[id]? = some name → of id = [name]
  lexical : ∀ r ∈ form.lexicals,
    r.head < form.names.size ∧ r.label ∉ g ∧ g.Derives (of r.head) [r.label]
  unit : ∀ r ∈ form.units,
    r.parent < form.userCount ∧ r.child < form.userCount ∧ g.Derives (of r.parent) (of r.child)
  pair : ∀ r ∈ form.pairs, r.head < form.names.size ∧ r.left < form.names.size ∧
    r.right < form.names.size ∧ g.Derives (of r.head) (of r.left ++ of r.right)
  proxy : ∀ p ∈ form.proxies,
    p.2 < form.names.size ∧ of p.2 = [p.1] ∧ ⟨p.1, p.2⟩ ∈ form.lexicals

/-- The second form is faithful, extends the first and leaves the meaning of its numbers alone. -/
structure Grown (g : Grammar) (before : NormalForm) (of : Nat → List String) (after : NormalForm)
    (of' : Nat → List String) : Prop where
  faithful : Faithful g after of'
  extension : before.Extends after
  same : ∀ id < before.names.size, of' id = of id

theorem Grown.trans {g a b c of of' of''} (h : Grown g a of b of') (k : Grown g b of' c of'') :
    Grown g a of c of'' :=
  ⟨k.faithful, h.extension.trans k.extension, fun id inside =>
    (k.same id (Nat.lt_of_lt_of_le inside h.extension.size_le)).trans (h.same id inside)⟩

theorem flatMap_same {of of' : Nat → List String} {n : Nat} {ids : List Nat}
    (same : ∀ id < n, of' id = of id) (inside : ∀ id ∈ ids, id < n) :
    ids.flatMap of' = ids.flatMap of :=
  List.flatMap_congr fun id member => same id (inside id member)

namespace Faithful

variable {g : Grammar} {form : NormalForm} {of : Nat → List String}

theorem userCount_le (h : Faithful g form of) : form.userCount ≤ form.names.size := by
  rw [h.userCount, ← Array.length_toList]
  exact h.users.length_le

theorem grown_refl (h : Faithful g form of) : Grown g form of form of :=
  ⟨h, .refl form, fun _ _ => rfl⟩

theorem congr (h : Faithful g form of) {of' : Nat → List String}
    (same : ∀ id < form.names.size, of' id = of id) : Faithful g form of' where
  users := h.users
  userCount := h.userCount
  user := by
    intro id name found
    have inside : id < form.userCount := h.userCount ▸ (List.getElem?_eq_some_iff.mp found).1
    rw [same id (Nat.lt_of_lt_of_le inside h.userCount_le), h.user found]
  lexical := by
    intro r member
    obtain ⟨inside, terminal, derives⟩ := h.lexical r member
    exact ⟨inside, terminal, by rwa [same r.head inside]⟩
  unit := by
    intro r member
    obtain ⟨parent, child, derives⟩ := h.unit r member
    refine ⟨parent, child, ?_⟩
    rwa [same r.parent (Nat.lt_of_lt_of_le parent h.userCount_le),
      same r.child (Nat.lt_of_lt_of_le child h.userCount_le)]
  pair := by
    intro r member
    obtain ⟨head, left, right, derives⟩ := h.pair r member
    exact ⟨head, left, right, by rwa [same r.head head, same r.left left, same r.right right]⟩
  proxy := by
    intro p member
    obtain ⟨inside, stands, rule⟩ := h.proxy p member
    exact ⟨inside, by rw [same p.2 inside, stands], rule⟩

theorem addName (h : Faithful g form of) (name : String) :
    Faithful g { form with names := form.names.push name } of where
  users := by
    rw [Array.toList_push]
    exact h.users.trans (List.prefix_append _ _)
  userCount := h.userCount
  user := h.user
  lexical := fun r member => by
    rw [Array.size_push]
    exact (h.lexical r member).imp_left Nat.lt_succ_of_lt
  unit := h.unit
  pair := fun r member => by
    obtain ⟨head, left, right, derives⟩ := h.pair r member
    rw [Array.size_push]
    exact ⟨Nat.lt_succ_of_lt head, Nat.lt_succ_of_lt left, Nat.lt_succ_of_lt right, derives⟩
  proxy := fun p member => by
    rw [Array.size_push]
    exact (h.proxy p member).imp_left Nat.lt_succ_of_lt

/-- A helper may stand for any sentence as long as it has no rules. -/
theorem addHelper (h : Faithful g form of) (name : String) (sentence : List String) :
    Grown g form of (form.addHelper name).2 (Function.update of form.names.size sentence) := by
  have same : ∀ id < form.names.size, Function.update of form.names.size sentence id = of id :=
    fun id inside => Function.update_of_ne (Nat.ne_of_lt inside) sentence of
  refine ⟨(h.congr same).addName name, ?_, same⟩
  refine ⟨?_, rfl, fun _ => id, fun _ => id, fun _ => id⟩
  rw [show (form.addHelper name).2.names.toList = form.names.toList ++ [name] from Array.toList_push]
  exact List.prefix_append _ _

theorem addLexical (h : Faithful g form of) {label head} (inside : head < form.names.size)
    (terminal : label ∉ g) (derives : g.Derives (of head) [label]) :
    Grown g form of { form with lexicals := ⟨label, head⟩ :: form.lexicals } of where
  faithful :=
    { h with
      lexical := List.forall_mem_cons.mpr ⟨⟨inside, terminal, derives⟩, h.lexical⟩
      proxy := fun p member =>
        (h.proxy p member).imp_right (And.imp_right (List.mem_cons_of_mem _)) }
  extension := ⟨List.prefix_rfl, rfl, List.subset_cons_self _ _, fun _ => id, fun _ => id⟩
  same := fun _ _ => rfl

theorem addUnit (h : Faithful g form of) {parent child} (hp : parent < form.userCount)
    (hc : child < form.userCount) (derives : g.Derives (of parent) (of child)) :
    Grown g form of { form with units := ⟨parent, child⟩ :: form.units } of where
  faithful := { h with unit := List.forall_mem_cons.mpr ⟨⟨hp, hc, derives⟩, h.unit⟩ }
  extension := ⟨List.prefix_rfl, rfl, fun _ => id, fun _ => id, List.subset_cons_self _ _⟩
  same := fun _ _ => rfl

theorem addPair (h : Faithful g form of) {left right head} (hl : left < form.names.size)
    (hr : right < form.names.size) (hh : head < form.names.size)
    (derives : g.Derives (of head) (of left ++ of right)) :
    Grown g form of { form with pairs := ⟨left, right, head⟩ :: form.pairs } of where
  faithful := { h with pair := List.forall_mem_cons.mpr ⟨⟨hh, hl, hr, derives⟩, h.pair⟩ }
  extension := ⟨List.prefix_rfl, rfl, fun _ => id, List.subset_cons_self _ _, fun _ => id⟩
  same := fun _ _ => rfl

theorem addProxy (h : Faithful g form of) {label helper} (inside : helper < form.names.size)
    (stands : of helper = [label]) (rule : ⟨label, helper⟩ ∈ form.lexicals) :
    Grown g form of { form with proxies := (label, helper) :: form.proxies } of where
  faithful := { h with proxy := List.forall_mem_cons.mpr ⟨⟨inside, stands, rule⟩, h.proxy⟩ }
  extension := ⟨List.prefix_rfl, rfl, fun _ => id, fun _ => id, fun _ => id⟩
  same := fun _ _ => rfl

theorem proxyFor (h : Faithful g form of) {label} (terminal : label ∉ g) :
    ∃ of', Grown g form of (form.proxyFor label).2 of' ∧
      (form.proxyFor label).1 < (form.proxyFor label).2.names.size ∧
      of' (form.proxyFor label).1 = [label] ∧
      ⟨label, (form.proxyFor label).1⟩ ∈ (form.proxyFor label).2.lexicals := by
  simp only [NormalForm.proxyFor]
  split
  · rename_i id found
    obtain ⟨front, back, split, _⟩ := List.lookup_eq_some_iff.mp found
    obtain ⟨inside, stands, rule⟩ := h.proxy (label, id) (by simp [split])
    exact ⟨of, h.grown_refl, inside, stands, rule⟩
  · have first := h.addHelper ("<" ++ label ++ ">") [label]
    have stands : Function.update of form.names.size [label] form.names.size = [label] :=
      Function.update_self ..
    have inside : form.names.size < (form.addHelper ("<" ++ label ++ ">")).2.names.size := by
      simp [NormalForm.addHelper]
    have second := first.faithful.addLexical inside terminal (by rw [stands]; exact .refl)
    have third := second.faithful.addProxy inside stands List.mem_cons_self
    exact ⟨_, (first.trans second).trans third, inside, stands, List.mem_cons_self⟩

theorem sentence_same (h : Faithful g form of) {of' : Nat → List String}
    (same : ∀ id < form.names.size, of' id = of id) {atom : Atom} (fits : atom.Fits g form.userCount) :
    atom.sentence of' = atom.sentence of := by
  cases atom with
  | terminal => rfl
  | nonterminal id => exact same id (Nat.lt_of_lt_of_le fits h.userCount_le)

theorem sentences_same (h : Faithful g form of) {of' : Nat → List String}
    (same : ∀ id < form.names.size, of' id = of id) {body : List Atom}
    (fits : ∀ atom ∈ body, atom.Fits g form.userCount) :
    body.flatMap (·.sentence of') = body.flatMap (·.sentence of) :=
  List.flatMap_congr fun atom member => h.sentence_same same (fits atom member)

/-- The numbers found for a body take the place of its symbols and have their sentences. -/
theorem number (h : Faithful g form of) {body : List Atom}
    (fits : ∀ atom ∈ body, atom.Fits g form.userCount) :
    ∃ of', Grown g form of (form.number body).2 of' ∧
      List.Forall₂ (form.number body).2.Stands body (form.number body).1 ∧
      (∀ id ∈ (form.number body).1, id < (form.number body).2.names.size) ∧
      (form.number body).1.flatMap of' = body.flatMap (·.sentence of) := by
  induction body generalizing form of with
  | nil => exact ⟨of, h.grown_refl, .nil, by simp [NormalForm.number], rfl⟩
  | cons atom rest ih =>
      have later : ∀ a ∈ rest, a.Fits g form.userCount :=
        fun a member => fits a (List.mem_cons_of_mem _ member)
      cases atom with
      | nonterminal id =>
          obtain ⟨of', grown, stands, inside, sentences⟩ := ih h later
          have known : id < form.names.size :=
            Nat.lt_of_lt_of_le (fits _ List.mem_cons_self) h.userCount_le
          refine ⟨of', grown, .cons rfl stands, ?_, ?_⟩
          · exact List.forall_mem_cons.mpr
              ⟨Nat.lt_of_lt_of_le known grown.extension.size_le, inside⟩
          · simp only [NormalForm.number, List.flatMap_cons, sentences, grown.same id known,
              Atom.sentence]
      | terminal label =>
          obtain ⟨of₁, first, known, stands, rule⟩ := h.proxyFor (fits _ List.mem_cons_self)
          have later' : ∀ a ∈ rest, a.Fits g (form.proxyFor label).2.userCount := by
            rwa [first.extension.userCount]
          obtain ⟨of', second, numbered, inside, sentences⟩ := ih first.faithful later'
          refine ⟨of', first.trans second, .cons (second.extension.lexicals rule) numbered, ?_, ?_⟩
          · exact List.forall_mem_cons.mpr
              ⟨Nat.lt_of_lt_of_le known second.extension.size_le, inside⟩
          · simp only [NormalForm.number, List.flatMap_cons, sentences, second.same _ known, stands,
              h.sentences_same first.same later]
            rfl

theorem addChain (h : Faithful g form of) (owner : String) {head : Nat} {ids : List Nat}
    (long : 2 ≤ ids.length) (known : head < form.names.size)
    (inside : ∀ id ∈ ids, id < form.names.size) (derives : g.Derives (of head) (ids.flatMap of)) :
    ∃ of', Grown g form of (form.addChain owner head ids) of' ∧
      (form.addChain owner head ids).Chained head ids := by
  induction ids generalizing form of head with
  | nil => simp at long
  | cons left rest ih =>
      obtain ⟨knownLeft, insideRest⟩ := List.forall_mem_cons.mp inside
      match rest with
      | [] => simp at long
      | [right] =>
          rw [List.flatMap_cons, List.flatMap_singleton] at derives
          exact ⟨of, h.addPair knownLeft (insideRest right List.mem_cons_self) known derives,
            List.mem_cons_self⟩
      | right :: next :: rest =>
          -- the tail is a new number and stands for the rest, which it is chained to in turn
          let tail := form.names.size
          let body := (right :: next :: rest).flatMap of
          have first := h.addHelper (owner ++ "#" ++ toString form.names.size) body
          have sentence : Function.update of tail body tail = body := Function.update_self ..
          have tailInside : tail < (form.addHelper
              (owner ++ "#" ++ toString form.names.size)).2.names.size := by
            simp [NormalForm.addHelper, tail]
          have second := first.faithful.addPair
            (Nat.lt_of_lt_of_le knownLeft first.extension.size_le) tailInside
            (Nat.lt_of_lt_of_le known first.extension.size_le)
            (by rwa [first.same left knownLeft, first.same head known, sentence])
          have both := first.trans second
          obtain ⟨of', third, chained⟩ := ih second.faithful (by simp) tailInside
            (fun id member => Nat.lt_of_lt_of_le (insideRest id member) both.extension.size_le)
            (by rw [flatMap_same both.same insideRest, sentence]; exact .refl)
          exact ⟨of', both.trans third, tail, third.extension.pairs List.mem_cons_self, chained⟩

/-- Adding a rule keeps the form faithful, and from then on the form holds the rule. -/
theorem addRule (h : Faithful g form of) {head : Nat} {body : List Atom} (known : head < form.userCount)
    (fits : ∀ atom ∈ body, atom.Fits g form.userCount)
    (derives : g.Derives (of head) (body.flatMap (·.sentence of))) :
    ∃ of', Grown g form of (form.addRule head body) of' ∧
      (body ≠ [] → (form.addRule head body).Holds head body) := by
  have inside : head < form.names.size := Nat.lt_of_lt_of_le known h.userCount_le
  unfold NormalForm.addRule
  split
  · exact ⟨of, h.grown_refl, fun nonempty => absurd rfl nonempty⟩
  · rename_i label
    have terminal : label ∉ g := fits _ List.mem_cons_self
    exact ⟨of, h.addLexical inside terminal (by simpa [Atom.sentence] using derives),
      fun _ => List.mem_cons_self⟩
  · rename_i child
    have user : child < form.userCount := fits _ List.mem_cons_self
    exact ⟨of, h.addUnit known user (by simpa [Atom.sentence] using derives),
      fun _ => List.mem_cons_self⟩
  · rename_i left right
    have bound : ∀ id, Atom.nonterminal id ∈ [Atom.nonterminal left, .nonterminal right] →
        id < form.names.size :=
      fun id member => Nat.lt_of_lt_of_le (fits _ member) h.userCount_le
    refine ⟨of, h.addPair (bound left (by simp)) (bound right (by simp)) inside
      (by simpa [Atom.sentence] using derives), fun _ => ?_⟩
    exact ⟨[left, right], .cons rfl (.cons rfl .nil), List.mem_cons_self⟩
  · rename_i empty single unit pair
    obtain ⟨of₁, first, stands, numbered, sentences⟩ := h.number fits
    have long : 2 ≤ (form.number body).1.length := by
      rw [← stands.length_eq]
      match body with
      | [] => exact absurd rfl empty
      | [.terminal label] => exact absurd rfl (single label)
      | [.nonterminal child] => exact absurd rfl (unit child)
      | _ :: _ :: _ => simp
    obtain ⟨of', second, chained⟩ := first.faithful.addChain ((form.number body).2.names.getD head "") long
      (Nat.lt_of_lt_of_le inside first.extension.size_le) numbered
      (by rwa [first.same head inside, sentences])
    refine ⟨of', first.trans second, fun _ => ?_⟩
    match body with
    | [] => exact absurd rfl empty
    | [.terminal label] => exact absurd rfl (single label)
    | [.nonterminal child] => exact absurd rfl (unit child)
    | _ :: _ :: _ =>
        simp only [Holds]
        exact ⟨_, stands.imp fun _ _ => second.extension.stands, chained⟩

end Faithful

end NormalForm

end WordWalk
