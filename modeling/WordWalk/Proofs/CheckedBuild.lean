import WordWalk.Proofs.Outcome
import WordWalk.Proofs.UnitRules

/-! # Construction with checked lookups

An index is made rule by rule: numbers are looked up by name, names and closures by number, and
a body that is broken up is taken apart by position. Here every lookup is checked, and the
construction halts where it finds nothing. It never does, since names and numbers of the normal
form are in use from the start or were added before, so the checks change nothing.
-/

namespace WordWalk

/-- Why a construction stops. -/
inductive Halt where
  /-- The grammar has a fault. -/
  | fault (why : BuildError)
  /-- Something that was looked up is not there. -/
  | missing

namespace Checked

def found {α : Type} : Option α → Except Halt α
  | some x => .ok x
  | none => .error .missing

def numberOf (g : Grammar) (name : String) : Except Halt Nat := found g.numbers[name]?

/-- Refuses a rule outside normal form under the strict policy. -/
def permit (policy : Policy) (p : Production) (how : Irregularity) : Except Halt Unit :=
  match policy with
  | .normalize => .ok ()
  | .strict => .error (.fault (.irregular p.nonterminal p.index how))

/-- Looks up the numbers of nonterminals and makes the proxies of terminals, from left to right. -/
def number (g : Grammar) (form : NormalForm) : List Symbol → Except Halt (List Nat × NormalForm)
  | [] => .ok ([], form)
  | .nonterminal name :: rest => do
      let id ← numberOf g name
      let (ids, form) ← number g form rest
      return (id :: ids, form)
  | .terminal label :: rest => do
      let (id, form) := form.proxyFor label
      let (ids, form) ← number g form rest
      return (id :: ids, form)

/-- All numbers but the last two. -/
def front (ids : List Nat) : Except Halt (List Nat) :=
  if 2 ≤ ids.length then .ok (ids.take (ids.length - 2)) else .error .missing

/-- Leaves the rest of a body to a new helper, which is the head of the next pair. -/
def addLink (owner : Nat) (state : NormalForm × Nat) (left : Nat) : Except Halt (NormalForm × Nat) := do
  let (form, head) := state
  let name ← found form.names[owner]?
  let (tail, form) := form.addHelper (name ++ "#" ++ toString form.names.size)
  return ({ form with pairs := ⟨left, tail, head⟩ :: form.pairs }, tail)

def addChain (owner : Nat) (form : NormalForm) (head : Nat) (ids : List Nat) : Except Halt NormalForm := do
  let (form, head) ← (← front ids).foldlM (addLink owner) (form, head)
  let left ← found ids[ids.length - 2]?
  let right ← found ids[ids.length - 1]?
  return { form with pairs := ⟨left, right, head⟩ :: form.pairs }

/-- Adds a rule of the grammar, or stops at what is wrong with it. -/
def addRule (policy : Policy) (g : Grammar) (form : NormalForm) (p : Production) : Except Halt NormalForm := do
  let head ← numberOf g p.nonterminal
  match p.body.map g.classify with
  | [] => .error (.fault (.emptyRule p.nonterminal p.index))
  | [.terminal label] => return { form with lexicals := ⟨label, head⟩ :: form.lexicals }
  | [.nonterminal child] => do
      permit policy p .unitProduction
      return { form with units := ⟨head, ← numberOf g child⟩ :: form.units }
  | [.nonterminal left, .nonterminal right] =>
      return { form with pairs := ⟨← numberOf g left, ← numberOf g right, head⟩ :: form.pairs }
  | symbols => do
      permit policy p (if symbols.length = 2 then .terminalInPair else .tooLong)
      let (ids, form) ← number g form symbols
      addChain head form head ids

/-- Enters the parent of a unit rule at the place of its child. -/
def addParent (r : UnitRule) (table : Array (List Nat)) : Except Halt (Array (List Nat)) := do
  let parents ← found table[r.child]?
  return table.setIfInBounds r.child (parents ++ [r.parent])

/-- The parents of every number, in the order of the rules. -/
def parents (form : NormalForm) : Except Halt (Array (List Nat)) :=
  form.units.foldrM addParent (Array.replicate form.names.size [])

/-- Collects what a table of successors leads to. -/
def saturate (table : Array (List Nat)) : Nat → List Nat → IdSet → Except Halt IdSet
  | 0, _, seen => .ok seen
  | _ + 1, [], seen => .ok seen
  | fuel + 1, a :: pending, seen =>
      if a ∈ seen then saturate table fuel pending seen
      else do
        let next ← found table[a]?
        saturate table fuel (next.reverse ++ pending) (seen.insert a)

def closures (form : NormalForm) : Except Halt (Array IdSet) := do
  let table ← parents form
  ((List.range form.names.size).mapM fun id => saturate table (form.units.length + 1) [id] ∅).map List.toArray

/-- Joins the closure of every head to the entry of its rule. -/
def gather {κ ρ : Type} {cmp : κ → κ → Ordering} (closures : Array IdSet) (key : ρ → κ) (head : ρ → Nat)
    (rules : List ρ) : Except Halt (Std.TreeMap κ IdSet cmp) :=
  rules.foldlM (fun table r => do
    let closure ← found closures[head r]?
    return table.insert (key r) (table.getD (key r) ∅ ∪ closure)) ∅

def tables (g : Grammar) (form : NormalForm) (closures : Array IdSet) : Except Halt Index := do
  let byLabel ← gather closures (·.label) (·.head) form.lexicals
  let byPair ← gather closures (fun r => IdPair.mk r.left r.right) (·.head) form.pairs
  return { form, closures, byLabel, byPair
           numbers := g.numbers, start := ← numberOf g startSymbol, ruleCount := g.ruleCount }

def finish (g : Grammar) (form : NormalForm) : Except Halt Index := do
  tables g form (← closures form)

/-- Adds one rule after another and stops at the first fault. -/
def build (policy : Policy) (g : Grammar) : Except Halt Index :=
  if startSymbol ∈ g then do
    finish g (← g.listing.foldlM (addRule policy g) (.ofNames g.nonterminals))
  else .error (.fault .missingStart)

variable {g : Grammar} {form : NormalForm}

theorem numberOf_eq {name : String} (member : name ∈ g) :
    numberOf g name = .ok (g.nonterminals.idxOf name) := by
  rw [numberOf, g.getElem?_numbers, NormalForm.idxOf?_nonterminal member]
  rfl

theorem classify_nonterminal {name : String} (member : name ∈ g) : g.classify name = .nonterminal name :=
  if_pos member

theorem classify_terminal {name : String} (terminal : name ∉ g) : g.classify name = .terminal name :=
  if_neg terminal

theorem number_eq (form : NormalForm) (body : Rule) :
    number g form (body.map g.classify) = .ok (form.number (NormalForm.atoms g.nonterminals body)) := by
  induction body generalizing form with
  | nil => rfl
  | cons name rest ih =>
      by_cases member : name ∈ g
      · rw [List.map_cons, classify_nonterminal member, NormalForm.atoms_cons_nonterminal member, number,
          numberOf_eq member]
        simp only [ih, NormalForm.number]
        rfl
      · rw [List.map_cons, classify_terminal member, NormalForm.atoms_cons_terminal member, number]
        simp only [ih, NormalForm.number]
        rfl

theorem addChain_cons {owner head left : Nat} {rest : List Nat} (long : 2 ≤ rest.length) :
    addChain owner form head (left :: rest) =
      (addLink owner (form, head) left >>= fun (form, head) => addChain owner form head rest) := by
  have before : (left :: rest).length - 2 = rest.length - 2 + 1 := Nat.succ_sub long
  have split : front (left :: rest) = .ok (left :: rest.take (rest.length - 2)) := by
    rw [front, if_pos (by simpa using Nat.le_succ_of_le long), before, List.take_succ_cons]
  have last : (left :: rest).length - 1 = rest.length - 1 + 1 := by
    rw [List.length_cons]
    omega
  have same : front rest = .ok (rest.take (rest.length - 2)) := if_pos long
  simp only [addChain, split, same, before, last, List.getElem?_cons_succ]
  exact bind_assoc (addLink owner (form, head) left) _ _

theorem addChain_eq {owner : Nat} {name : String} (named : form.names[owner]? = some name) {head : Nat}
    {ids : List Nat} (long : 2 ≤ ids.length) :
    addChain owner form head ids = .ok (form.addChain name head ids) := by
  induction ids generalizing form head with
  | nil => simp at long
  | cons left rest ih =>
      match rest with
      | [] => simp at long
      | [right] => rfl
      | right :: next :: rest =>
          have inside : owner < form.names.size := (Array.getElem?_eq_some_iff.mp named).1
          let more : NormalForm :=
            { (form.addHelper (name ++ "#" ++ toString form.names.size)).2 with
              pairs := ⟨left, form.names.size, head⟩ :: form.pairs }
          have still : more.names[owner]? = some name := by
            rw [← named, Array.getElem?_eq_getElem inside]
            exact Array.getElem?_push_lt inside
          rw [addChain_cons (by simp), addLink, named]
          exact ih still (by simp)

variable {of : Nat → List String}

theorem split_eq (faithful : form.Faithful g of) {head : Nat} (user : head < form.userCount) (body : Rule)
    (long : 2 ≤ body.length) :
    (number g form (body.map g.classify) >>= fun (ids, form) => addChain head form head ids) =
      .ok ((form.number (NormalForm.atoms g.nonterminals body)).2.addChain
        ((form.number (NormalForm.atoms g.nonterminals body)).2.names.getD head "") head
        (form.number (NormalForm.atoms g.nonterminals body)).1) := by
  obtain ⟨of', grown, stands, _⟩ := faithful.number (faithful.userCount ▸ NormalForm.atoms_fit body)
  have inside : head < (form.number (NormalForm.atoms g.nonterminals body)).2.names.size :=
    Nat.lt_of_lt_of_le (Nat.lt_of_lt_of_le user faithful.userCount_le) grown.extension.size_le
  have named : (form.number (NormalForm.atoms g.nonterminals body)).2.names[head]? =
      some ((form.number (NormalForm.atoms g.nonterminals body)).2.names.getD head "") := by
    rw [Array.getD_eq_getD_getElem?, Array.getElem?_eq_getElem inside, Option.getD_some]
  have count : (NormalForm.atoms g.nonterminals body).length = body.length := List.length_map _
  rw [number_eq]
  exact addChain_eq named (by rw [← stands.length_eq, count]; exact long)

theorem addRule_eq (policy : Policy) (faithful : form.Faithful g of) {p : Production}
    (member : p.nonterminal ∈ g) :
    addRule policy g form p =
      match p.fault? g policy with
      | some why => .error (.fault why)
      | none => .ok (NormalForm.addProduction g form p) := by
  have user : g.nonterminals.idxOf p.nonterminal < form.userCount := faithful.number_lt member
  obtain ⟨name, index, body⟩ := p
  simp only [addRule, numberOf_eq member]
  match body with
  | [] => rfl
  | [a] =>
      by_cases inside : a ∈ g
      · have atom : NormalForm.atoms g.nonterminals [a] = [.nonterminal (g.nonterminals.idxOf a)] :=
          NormalForm.atoms_cons_nonterminal inside []
        simp only [List.map_cons, List.map_nil, classify_nonterminal inside, Production.fault?,
          NormalForm.addProduction, atom, numberOf_eq inside]
        cases policy <;> rfl
      · have atom : NormalForm.atoms g.nonterminals [a] = [.terminal a] :=
          NormalForm.atoms_cons_terminal inside []
        simp only [List.map_cons, List.map_nil, classify_terminal inside, Production.fault?,
          NormalForm.addProduction, atom]
        cases policy <;> rfl
  | [a, b] =>
      by_cases left : a ∈ g <;> by_cases right : b ∈ g
      · have atom : NormalForm.atoms g.nonterminals [a, b] = [.nonterminal (g.nonterminals.idxOf a),
            .nonterminal (g.nonterminals.idxOf b)] := by
          rw [NormalForm.atoms_cons_nonterminal left, NormalForm.atoms_cons_nonterminal right]
          rfl
        simp only [List.map_cons, List.map_nil, classify_nonterminal left, classify_nonterminal right,
          Production.fault?, NormalForm.addProduction, atom, numberOf_eq left, numberOf_eq right]
        cases policy <;> rfl
      all_goals
        have split := split_eq faithful user [a, b] (Nat.le_refl 2)
        simp only [List.map_cons, List.map_nil, classify_nonterminal, classify_terminal, left, right,
          not_false_eq_true, NormalForm.atoms, NormalForm.idxOf?_nonterminal, NormalForm.idxOf?_terminal,
          Production.fault?, NormalForm.addProduction] at split ⊢
        cases policy
        · rfl
        · exact split
  | a :: b :: c :: rest =>
      by_cases left : a ∈ g <;> by_cases right : b ∈ g
      all_goals
        have split := split_eq faithful user (a :: b :: c :: rest) (by simp)
        simp only [List.map_cons, classify_nonterminal, classify_terminal, left, right, not_false_eq_true,
          NormalForm.atoms, NormalForm.idxOf?_nonterminal, NormalForm.idxOf?_terminal, Production.fault?,
          NormalForm.addProduction] at split ⊢
        cases policy
        · rfl
        · exact split

theorem addRules_eq (policy : Policy) (faithful : form.Faithful g of) {listed : List Production}
    (known : listed ⊆ g.listing) :
    listed.foldlM (addRule policy g) form =
      match listed.findSome? (·.fault? g policy) with
      | some why => .error (.fault why)
      | none => .ok (listed.foldl (NormalForm.addProduction g) form) := by
  induction listed generalizing form of with
  | nil => rfl
  | cons p rest ih =>
      have listed : p ∈ g.listing := known List.mem_cons_self
      have member := Grammar.mem_of_listed listed
      rw [List.foldlM_cons, addRule_eq policy faithful member, List.findSome?_cons]
      cases p.fault? g policy with
      | some why => rfl
      | none =>
          obtain ⟨of', grown⟩ := faithful.addProduction listed
          exact ih grown.faithful (List.subset_of_cons_subset known)

theorem addParents_eq {size : Nat} {units : List UnitRule} (inside : ∀ r ∈ units, r.child < size) :
    units.foldrM addParent (Array.replicate size []) =
      .ok ((Array.range size).map fun id => ((units.filter (·.child == id)).map (·.parent)).reverse) := by
  induction units with
  | nil =>
      refine congrArg Except.ok (Array.ext (by simp) fun id _ _ => ?_)
      simp
  | cons r rest ih =>
      obtain ⟨first, later⟩ := List.forall_mem_cons.mp inside
      rw [List.foldrM_cons, ih later]
      have there : ((Array.range size).map fun id =>
          ((rest.filter (·.child == id)).map (·.parent)).reverse)[r.child]? =
            some ((rest.filter (·.child == r.child)).map (·.parent)).reverse := by
        simp [first]
      change addParent r _ = _
      rw [addParent, there]
      refine congrArg Except.ok (Array.ext_getElem? fun id => ?_)
      rw [Array.getElem?_setIfInBounds]
      by_cases same : r.child = id
      · subst same
        simp [first]
      · by_cases known : id < size <;> simp [same, known]

theorem parents_eq (bounded : ∀ r ∈ form.units, r.child < form.names.size) :
    parents form = .ok ((Array.range form.names.size).map form.parents) := addParents_eq bounded

/-- Every number that becomes pending has a place in the table. -/
theorem saturate_eq {table : Array (List Nat)} {next : Nat → List Nat} {size : Nat}
    (same : ∀ id < size, table[id]? = some (next id)) (closed : ∀ id < size, ∀ b ∈ next id, b < size)
    {fuel : Nat} {pending : List Nat} {seen : IdSet} (inside : ∀ a ∈ pending, a < size) :
    saturate table fuel pending seen = .ok (WordWalk.saturate (fun _ => next) fuel pending seen) := by
  induction fuel generalizing pending seen with
  | zero => rfl
  | succ fuel ih =>
      cases pending with
      | nil => rfl
      | cons a rest =>
          obtain ⟨known, later⟩ := List.forall_mem_cons.mp inside
          simp only [saturate, WordWalk.saturate]
          split
          · exact ih later
          · rw [same a known]
            refine ih fun b member => ?_
            rcases List.mem_append.mp member with new | old
            · exact closed a known b (List.mem_reverse.mp new)
            · exact later b old

theorem closures_eq (bounded : ∀ r ∈ form.units, r.parent < form.names.size ∧ r.child < form.names.size) :
    closures form = .ok ((Array.range form.names.size).map form.ancestors) := by
  have same : ∀ id < form.names.size,
      ((Array.range form.names.size).map form.parents)[id]? = some (form.parents id) := by
    intro id inside
    simp [inside]
  have closed : ∀ id < form.names.size, ∀ b ∈ form.parents id, b < form.names.size :=
    fun id _ b member => (bounded _ (NormalForm.mem_parents.mp member)).1
  have each : ∀ id ∈ List.range form.names.size,
      saturate ((Array.range form.names.size).map form.parents) (form.units.length + 1) [id] ∅ =
        .ok (form.ancestors id) := by
    intro id member
    refine saturate_eq same closed fun a alone => ?_
    rw [List.mem_singleton.mp alone]
    exact List.mem_range.mp member
  rw [closures, parents_eq fun r member => (bounded r member).2]
  change Except.map List.toArray (List.mapM _ _) = _
  rw [mapM_eq_ok each]
  refine congrArg Except.ok (Array.ext (by simp) fun id _ _ => ?_)
  simp

theorem gather_eq {κ ρ : Type} {cmp : κ → κ → Ordering} {closures : Array IdSet} {key : ρ → κ} {head : ρ → Nat}
    {rules : List ρ} (inside : ∀ r ∈ rules, head r < closures.size) :
    (gather closures key head rules : Except Halt (Std.TreeMap κ IdSet cmp)) =
      .ok (Index.gather key (fun r => closures.getD (head r) ∅) rules ∅) := by
  rw [gather, Index.gather]
  generalize (∅ : Std.TreeMap κ IdSet cmp) = table
  induction rules generalizing table with
  | nil => rfl
  | cons r rest ih =>
      obtain ⟨first, later⟩ := List.forall_mem_cons.mp inside
      have there : closures[head r]? = some (closures.getD (head r) ∅) := by
        simp [Array.getD_eq_getD_getElem?, first]
      rw [List.foldlM_cons, there]
      exact ih later _

theorem finish_eq (start : startSymbol ∈ g) (faithful : form.Faithful g of) :
    finish g form = .ok (Index.ofNormalForm form g.numbers (g.nonterminals.idxOf startSymbol) g.ruleCount) := by
  have bounded : ∀ r ∈ form.units, r.parent < form.names.size ∧ r.child < form.names.size := by
    intro r member
    obtain ⟨parent, child, _⟩ := faithful.unit r member
    exact ⟨Nat.lt_of_lt_of_le parent faithful.userCount_le, Nat.lt_of_lt_of_le child faithful.userCount_le⟩
  have size : ((Array.range form.names.size).map form.ancestors).size = form.names.size := by simp
  have lexical : ∀ r ∈ form.lexicals, r.head < ((Array.range form.names.size).map form.ancestors).size :=
    fun r member => size.symm ▸ (faithful.lexical r member).1
  have pair : ∀ r ∈ form.pairs, r.head < ((Array.range form.names.size).map form.ancestors).size :=
    fun r member => size.symm ▸ (faithful.pair r member).1
  rw [finish, closures_eq bounded]
  change tables g form _ = _
  rw [tables, gather_eq lexical, gather_eq pair, numberOf_eq start]
  rfl

/-- Nothing that is looked up is ever missing: step by step the construction comes to the same
    index or stops at the same fault. -/
theorem build_eq (policy : Policy) (g : Grammar) :
    build policy g = (Index.build policy g).mapError .fault := by
  rw [build, Index.build, Grammar.fault?]
  split
  · rename_i start
    rw [addRules_eq policy (NormalForm.faithful_ofNames g) (List.Subset.refl _)]
    cases g.listing.findSome? (·.fault? g policy) with
    | some why => rfl
    | none =>
        obtain ⟨of, faithful, _⟩ := NormalForm.ofGrammar_faithful g
        exact finish_eq start faithful
  · rfl

end Checked
end WordWalk
