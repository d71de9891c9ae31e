import Mathlib.Algebra.BigOperators.Group.List.Lemmas
import WordWalk.Index.Basic
import WordWalk.Proofs.BinaryRules
import WordWalk.Proofs.Saturation

/-! # What the tables of an index hold

The closure of a number holds whatever leads to it by unit rules alone. An entry of a table
joins the closures of the heads of its rules, so reading the tables as rules of their own
derives the same words as the normal form they were made from, without unit rules.
-/

namespace WordWalk

instance : Std.TransCmp IdPair.order :=
  inferInstanceAs (Std.TransCmp (compareLex (compareOn IdPair.left) (compareOn IdPair.right)))

instance : Std.LawfulEqCmp IdPair.order where
  eq_of_compare {a b} same := by
    cases a
    cases b
    simpa [IdPair.order, compareLex_eq_eq, compareOn] using same

namespace NormalForm

variable {form : NormalForm}

theorem mem_parents {id parent : Nat} : parent ∈ form.parents id ↔ ⟨parent, id⟩ ∈ form.units := by
  simp only [parents, List.mem_reverse, List.mem_map, List.mem_filter, beq_iff_eq]
  constructor
  · rintro ⟨⟨_, _⟩, ⟨member, rfl⟩, rfl⟩
    exact member
  · intro member
    exact ⟨_, ⟨member, rfl⟩, rfl⟩

theorem sum_parents : (((form.units.map (·.child)).dedup).map fun id => (form.parents id).length).sum =
    form.units.length := by
  have counted : ∀ id, (form.parents id).length = (form.units.map (·.child)).count id := by
    intro id
    rw [parents, List.length_reverse, List.length_map, List.count, List.countP_map, List.countP_eq_length_filter]
    rfl
  simp only [counted]
  rw [List.sum_map_count_dedup_eq_length, List.length_map]

theorem ends_ancestors (form : NormalForm) (id : Nat) :
    Saturation.Ends (fun _ => form.parents) [id] ∅ (form.ancestors id) := by
  refine Saturation.ends_single (.all form.parents) (form.units.map (·.child)).dedup ?_ ?_ id
  · intro child outside
    refine List.eq_nil_iff_forall_not_mem.mpr fun p member => outside ?_
    rw [List.mem_dedup]
    exact List.mem_map_of_mem (mem_parents.mp member)
  · rw [sum_parents]
    exact Nat.lt_succ_self _

/-- The ancestors of a number are what its unit rules lead to, going from child to parent. -/
theorem mem_ancestors {id parent : Nat} :
    parent ∈ form.ancestors id ↔ Saturation.Leads form.parents id parent :=
  (form.ends_ancestors id).mem_iff_leads (.all form.parents)

/-- Whoever leads down to a number by unit rules derives its words. -/
theorem Derives.ancestor {id parent word} (led : Saturation.Leads form.parents id parent)
    (h : form.Derives id word) : form.Derives parent word := by
  induction led with
  | refl => exact h
  | tail _ last ih => exact .unit (mem_parents.mp last) ih

/-- The heads of the rules are numbers of the form. -/
structure Bounded (form : NormalForm) : Prop where
  lexical : ∀ r ∈ form.lexicals, r.head < form.names.size
  pair : ∀ r ∈ form.pairs, r.head < form.names.size

end NormalForm

namespace Index

section Gather

variable {κ ρ : Type} {cmp : κ → κ → Ordering} [Std.TransCmp cmp] [Std.LawfulEqCmp cmp]

def gather (key : ρ → κ) (value : ρ → IdSet) (rules : List ρ) (table : Std.TreeMap κ IdSet cmp) :
    Std.TreeMap κ IdSet cmp :=
  rules.foldl (fun table r => table.insert (key r) (table.getD (key r) ∅ ∪ value r)) table

theorem mem_gather {key : ρ → κ} {value : ρ → IdSet} {rules : List ρ}
    {table : Std.TreeMap κ IdSet cmp} {k : κ} {id : Nat} :
    id ∈ ((gather key value rules table)[k]?).getD ∅ ↔
      id ∈ (table[k]?).getD ∅ ∨ ∃ r ∈ rules, key r = k ∧ id ∈ value r := by
  induction rules generalizing table with
  | nil => simp [gather]
  | cons r rest ih =>
      have entry : id ∈ ((table.insert (key r) (table.getD (key r) ∅ ∪ value r))[k]?).getD ∅ ↔
          id ∈ (table[k]?).getD ∅ ∨ (key r = k ∧ id ∈ value r) := by
        rw [Std.TreeMap.getElem?_insert]
        by_cases same : key r = k
        · subst same
          rw [if_pos Std.ReflCmp.compare_self]
          simp [Std.TreeMap.getD_eq_getD_getElem?, Std.TreeSet.mem_union_iff]
        · rw [if_neg fun equal => same (Std.LawfulEqCmp.eq_of_compare equal)]
          simp [same]
      rw [show gather key value (r :: rest) table = gather key value rest _ from rfl, ih, entry]
      simp only [List.exists_mem_cons_iff, or_assoc]

theorem isSome_gather {key : ρ → κ} {value : ρ → IdSet} {rules : List ρ}
    {table : Std.TreeMap κ IdSet cmp} {k : κ} :
    ((gather key value rules table)[k]?).isSome ↔ (table[k]?).isSome ∨ ∃ r ∈ rules, key r = k := by
  induction rules generalizing table with
  | nil => simp [gather]
  | cons r rest ih =>
      have entry : ((table.insert (key r) (table.getD (key r) ∅ ∪ value r))[k]?).isSome ↔
          (table[k]?).isSome ∨ key r = k := by
        rw [Std.TreeMap.getElem?_insert]
        by_cases same : key r = k
        · subst same
          simp
        · rw [if_neg fun equal => same (Std.LawfulEqCmp.eq_of_compare equal)]
          simp [same]
      rw [show gather key value (r :: rest) table = gather key value rest _ from rfl, ih, entry]
      simp only [List.exists_mem_cons_iff, or_assoc]

end Gather

/-- What a number derives when the tables are read as rules. -/
inductive Derives (index : Index) : Nat → List String → Prop
  | label {label id} (rule : id ∈ (index.producersOfLabel? label).getD ∅) : Derives index id [label]
  | pair {left right id first second} (rule : id ∈ (index.producersOfPair? left right).getD ∅)
      (front : Derives index left first) (back : Derives index right second) :
      Derives index id (first ++ second)

theorem Derives.ne_nil {index : Index} {id word} (h : index.Derives id word) : word ≠ [] := by
  induction h with
  | label => exact List.cons_ne_nil _ _
  | pair _ _ _ ih _ => exact List.append_ne_nil_of_left_ne_nil ih _

variable {form : NormalForm} {numbers : Std.TreeMap String Nat} {start ruleCount : Nat}

def closure (index : Index) (id : Nat) : IdSet := index.closures.getD id ∅

theorem mem_closure {id parent : Nat} (inside : id < form.names.size) :
    parent ∈ (ofNormalForm form numbers start ruleCount).closure id ↔
      Saturation.Leads form.parents id parent := by
  have found : (ofNormalForm form numbers start ruleCount).closure id = form.ancestors id := by
    simp [closure, ofNormalForm, Array.getD_eq_getD_getElem?, inside]
  rw [found, NormalForm.mem_ancestors]

/-- The producers of a label are closed under going up by unit rules, and nothing more. -/
theorem mem_producersOfLabel (bounded : form.Bounded) {label : String} {id : Nat} :
    id ∈ ((ofNormalForm form numbers start ruleCount).producersOfLabel? label).getD ∅ ↔
      ∃ r ∈ form.lexicals, r.label = label ∧ Saturation.Leads form.parents r.head id := by
  let index := ofNormalForm form numbers start ruleCount
  have entries : (ofNormalForm form numbers start ruleCount).producersOfLabel? label =
      (gather (·.label) (fun r => index.closure r.head) form.lexicals ∅)[label]? := rfl
  rw [entries, mem_gather]
  constructor
  · rintro (h | ⟨r, member, same, h⟩)
    · simp at h
    · exact ⟨r, member, same, (mem_closure (bounded.lexical r member)).mp h⟩
  · rintro ⟨r, member, same, led⟩
    exact .inr ⟨r, member, same, (mem_closure (bounded.lexical r member)).mpr led⟩

theorem mem_producersOfPair (bounded : form.Bounded) {left right id : Nat} :
    id ∈ ((ofNormalForm form numbers start ruleCount).producersOfPair? left right).getD ∅ ↔
      ∃ r ∈ form.pairs, r.left = left ∧ r.right = right ∧
        Saturation.Leads form.parents r.head id := by
  let index := ofNormalForm form numbers start ruleCount
  have entries : (ofNormalForm form numbers start ruleCount).producersOfPair? left right =
      (gather (fun r => IdPair.mk r.left r.right) (fun r => index.closure r.head) form.pairs ∅)[
        IdPair.mk left right]? := rfl
  rw [entries, mem_gather]
  simp only [IdPair.mk.injEq]
  constructor
  · rintro (h | ⟨r, member, ⟨sameLeft, sameRight⟩, h⟩)
    · simp at h
    · exact ⟨r, member, sameLeft, sameRight, (mem_closure (bounded.pair r member)).mp h⟩
  · rintro ⟨r, member, sameLeft, sameRight, led⟩
    exact .inr ⟨r, member, ⟨sameLeft, sameRight⟩, (mem_closure (bounded.pair r member)).mpr led⟩

theorem isSome_producersOfLabel {label : String} :
    ((ofNormalForm form numbers start ruleCount).producersOfLabel? label).isSome ↔
      ∃ r ∈ form.lexicals, r.label = label := by
  let index := ofNormalForm form numbers start ruleCount
  have entries : (ofNormalForm form numbers start ruleCount).producersOfLabel? label =
      (gather (·.label) (fun r => index.closure r.head) form.lexicals ∅)[label]? := rfl
  rw [entries, isSome_gather]
  simp

theorem isSome_producersOfPair {left right : Nat} :
    ((ofNormalForm form numbers start ruleCount).producersOfPair? left right).isSome ↔
      ∃ r ∈ form.pairs, r.left = left ∧ r.right = right := by
  let index := ofNormalForm form numbers start ruleCount
  have entries : (ofNormalForm form numbers start ruleCount).producersOfPair? left right =
      (gather (fun r => IdPair.mk r.left r.right) (fun r => index.closure r.head) form.pairs ∅)[
        IdPair.mk left right]? := rfl
  rw [entries, isSome_gather]
  simp

theorem mem_terminals {index : Index} {label : String} :
    label ∈ index.terminals ↔ (index.producersOfLabel? label).isSome := by
  rw [terminals, Std.TreeMap.mem_keys, Std.TreeMap.mem_iff_isSome_getElem?]
  rfl

theorem Derives.label_mem {index : Index} {id word} (h : index.Derives id word) {label : String}
    (member : label ∈ word) : label ∈ index.terminals := by
  induction h with
  | label rule =>
      obtain rfl := List.mem_singleton.mp member
      rw [mem_terminals, Option.isSome_iff_ne_none]
      intro none
      simp [none] at rule
  | pair _ _ _ front back => exact (List.mem_append.mp member).elim front back

theorem isHelper_iff {index : Index} {id : Nat} :
    index.isHelper id = true ↔ index.form.userCount ≤ id ∧ id < index.nonterminalCount := by
  rw [isHelper, Bool.and_eq_true, decide_eq_true_iff, decide_eq_true_iff]

theorem isSome_unitClosure {index : Index} {id : Nat} :
    (index.unitClosure? id).isSome ↔ id < index.closures.size := by
  simp [unitClosure?]

theorem size_closures : (ofNormalForm form numbers start ruleCount).closures.size = form.names.size := by
  simp [ofNormalForm]

/-- The second number is in the unit closure of the first. -/
def Climbs (index : Index) (id parent : Nat) : Prop :=
  ∃ closure, index.unitClosure? id = some closure ∧ parent ∈ closure

theorem unitClosure?_ofNormalForm {id : Nat} (inside : id < form.names.size) :
    (ofNormalForm form numbers start ruleCount).unitClosure? id = some (form.ancestors id) := by
  simp [unitClosure?, ofNormalForm, inside]

theorem climbs_iff {id parent : Nat} (inside : id < form.names.size) :
    (ofNormalForm form numbers start ruleCount).Climbs id parent ↔ Saturation.Leads form.parents id parent := by
  simp [Climbs, unitClosure?_ofNormalForm inside, NormalForm.mem_ancestors]

theorem Derives.up (bounded : form.Bounded) {parent child word} (rule : ⟨parent, child⟩ ∈ form.units)
    (h : (ofNormalForm form numbers start ruleCount).Derives child word) :
    (ofNormalForm form numbers start ruleCount).Derives parent word := by
  have last : parent ∈ form.parents child := NormalForm.mem_parents.mpr rule
  cases h with
  | label entry =>
      obtain ⟨r, member, same, led⟩ := (mem_producersOfLabel bounded).mp entry
      exact .label ((mem_producersOfLabel bounded).mpr ⟨r, member, same, led.tail last⟩)
  | pair entry front back =>
      obtain ⟨r, member, sameLeft, sameRight, led⟩ := (mem_producersOfPair bounded).mp entry
      exact .pair ((mem_producersOfPair bounded).mpr
        ⟨r, member, sameLeft, sameRight, led.tail last⟩) front back

/-- The tables derive the same words as the normal form. -/
theorem derives_iff (bounded : form.Bounded) {id word} :
    (ofNormalForm form numbers start ruleCount).Derives id word ↔ form.Derives id word := by
  constructor
  · intro h
    induction h with
    | label entry =>
        obtain ⟨r, member, rfl, led⟩ := (mem_producersOfLabel bounded).mp entry
        exact .ancestor led (.lexical member)
    | pair entry _ _ front back =>
        obtain ⟨r, member, rfl, rfl, led⟩ := (mem_producersOfPair bounded).mp entry
        exact .ancestor led (.pair member front back)
  · intro h
    induction h with
    | lexical rule =>
        exact .label ((mem_producersOfLabel bounded).mpr ⟨_, rule, rfl, .refl⟩)
    | unit rule _ ih => exact ih.up bounded rule
    | pair rule _ _ front back =>
        exact .pair ((mem_producersOfPair bounded).mpr ⟨_, rule, rfl, rfl, .refl⟩) front back

end Index

end WordWalk
