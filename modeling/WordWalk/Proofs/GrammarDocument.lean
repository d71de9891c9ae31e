import Mathlib.Data.List.Perm.Basic
import WordWalk.Document.Grammar
import WordWalk.Proofs.Entries
import WordWalk.Proofs.Outcome

/-! # Grammars as documents

A document of fixed shape can be decoded by shape alone, and then it is known member by member
and item by item what the document is. Grammars are such documents. The reader that says
what is wrong with a document accepts the same ones, so it accepts what grammars are written
as and nothing else. It makes no difference whether the rules are decoded first or appended to
the grammar one by one, since all members of an object have names of their own.
-/

namespace WordWalk

namespace Json

/-- The object with an entry written under each name. -/
def ofEntries {α : Type} (write : α → Json) (entries : List (String × α)) : Json :=
  .object (entries.map fun (name, x) => (name, write x))

/-- No two members of an object have one name. Other values have no members. -/
def Distinct : Json → Prop
  | .object members => (members.map Prod.fst).Nodup
  | _ => True

/-- The same value, except that an object may have its members in another order. -/
def Reorders : Json → Json → Prop
  | .object members, .object others => members.Perm others
  | v, w => v = w

def text? : Json → Option String
  | .text s => some s
  | _ => none

/-- The items of a list, all of one shape. -/
def listOf? {α : Type} (item? : Json → Option α) : Json → Option (List α)
  | .list items => items.mapM item?
  | _ => none

/-- The members of an object, their values all of one shape. -/
def objectOf? {α : Type} (value? : Json → Option α) : Json → Option (List (String × α))
  | .object members => members.mapM fun m => (value? m.2).map (m.1, ·)
  | _ => none

/-- What is decoded is what is written, and each value is written in one way. -/
def Exact {α β : Type} (decode? : β → Option α) (write : α → β) : Prop :=
  ∀ v x, decode? v = some x ↔ v = write x

variable {α β : Type}

theorem Exact.mapM {decode? : β → Option α} {write : α → β} (h : Exact decode? write) :
    Exact (List.mapM decode?) (List.map write) := by
  intro vs xs
  induction vs generalizing xs with
  | nil => cases xs <;> simp
  | cons v vs ih =>
      have items : (v :: vs).mapM decode? = some xs ↔
          ∃ y ys, v = write y ∧ vs = ys.map write ∧ y :: ys = xs := by
        simp [Option.bind_eq_some_iff, h v, ih]
      rw [items]
      cases xs <;> simp

theorem exact_text : Exact text? .text := by
  intro v x
  cases v <;> simp [text?]

theorem Exact.list {decode? : Json → Option α} {write : α → Json} (h : Exact decode? write) :
    Exact (listOf? decode?) fun xs => .list (xs.map write) := by
  intro v xs
  cases v <;> simp [listOf?, h.mapM _ _]

theorem Exact.object {decode? : Json → Option α} {write : α → Json} (h : Exact decode? write) :
    Exact (objectOf? decode?) (ofEntries write) := by
  have member : Exact (fun m : String × Json => (decode? m.2).map (m.1, ·))
      (fun x => (x.1, write x.2)) := by
    rintro ⟨name, v⟩ ⟨name', x⟩
    simp [h v, and_comm]
  intro v xs
  cases v <;> simp [objectOf?, ofEntries, member.mapM _ _]

theorem reorders_refl (v : Json) : v.Reorders v := by
  cases v <;> simp [Reorders]

theorem reorders_ofEntries {v : Json} {write : α → Json} {entries : List (String × α)} :
    v.Reorders (ofEntries write entries) ↔ ∃ others, v = ofEntries write others ∧ others.Perm entries := by
  constructor
  · intro same
    cases v with
    | object members =>
        have written : List.Forall₂ (fun m (entry : String × α) => m = (entry.1, write entry.2))
            (entries.map fun (name, x) => (name, write x)) entries := by
          rw [List.forall₂_map_left_iff, List.forall₂_same]
          exact fun _ _ => rfl
        obtain ⟨others, members, perm⟩ := List.perm_comp_forall₂ same written
        rw [← List.forall₂_map_right_iff, List.forall₂_eq_eq_eq] at members
        exact ⟨others, congrArg object members, perm⟩
    | _ => nomatch same
  · rintro ⟨others, rfl, perm⟩
    exact perm.map _

theorem distinct_ofEntries {write : α → Json} {entries : List (String × α)} :
    (ofEntries write entries).Distinct ↔ (entries.map Prod.fst).Nodup := by
  simp [Distinct, ofEntries, Function.comp_def]

end Json

namespace Grammar

def rulesJson (rules : List Rule) : Json := .list (rules.map .ofTexts)

/-- The rules of a document, decoded by its shape. -/
def rulesOfJson? : Json → Option (List Rule) := Json.listOf? (Json.listOf? Json.text?)

/-- The grammar of a document, decoded by its shape. -/
def ofJson? (v : Json) : Option Grammar := (Json.objectOf? rulesOfJson? v).map .ofList

theorem exact_rules : Json.Exact rulesOfJson? rulesJson := Json.exact_text.list.list

theorem toJson_eq (g : Grammar) : g.toJson = .ofEntries rulesJson g.toList := rfl

theorem ofJson?_eq_some {v : Json} {g : Grammar} :
    ofJson? v = some g ↔ ∃ rules, v = .ofEntries rulesJson rules ∧ g = .ofList rules := by
  rw [ofJson?, Option.map_eq_some_iff]
  exact exists_congr fun rules => and_congr (exact_rules.object v rules) eq_comm

theorem toOption_ruleOfJson (nonterminal : String) (index : Nat) (v : Json) :
    (ruleOfJson nonterminal index v).toOption = Json.listOf? Json.text? v := by
  cases v with
  | list symbols =>
      rw [ruleOfJson, toOption_mapM]
      congr 1
      funext symbol
      cases symbol <;> rfl
  | _ => rfl

theorem toOption_rulesOfJson (nonterminal : String) (v : Json) :
    (rulesOfJson nonterminal v).toOption = rulesOfJson? v := by
  cases v with
  | list rules =>
      rw [rulesOfJson, toOption_mapM]
      simp only [toOption_ruleOfJson]
      calc rules.zipIdx.mapM ((Json.listOf? Json.text?) ∘ Prod.fst)
        _ = (rules.zipIdx.map Prod.fst).mapM (Json.listOf? Json.text?) := List.mapM_map.symm
        _ = rulesOfJson? (.list rules) := by rw [List.zipIdx_map_fst]; rfl
  | _ => rfl

def entryOfJson (m : String × Json) : Except ShapeError (String × List Rule) := do
  return (m.1, ← rulesOfJson m.1 m.2)

theorem ofJson_object (members : List (String × Json)) :
    ofJson (.object members) = (members.mapM entryOfJson).map ofList := rfl

theorem toOption_entries (members : List (String × Json)) :
    (members.mapM entryOfJson).toOption = Json.objectOf? rulesOfJson? (.object members) := by
  rw [toOption_mapM]
  refine congrArg (members.mapM ·) (funext fun m => ?_)
  rw [← toOption_rulesOfJson m.1, entryOfJson]
  cases rulesOfJson m.1 m.2 <;> rfl

/-- The reader that says what is wrong accepts a document exactly if its shape is right. -/
theorem ofJson_eq_ok {v : Json} {g : Grammar} : ofJson v = .ok g ↔ ofJson? v = some g := by
  rw [← toOption_eq_some]
  cases v with
  | object members =>
      rw [ofJson?, ← toOption_entries, ofJson_object]
      cases members.mapM entryOfJson <;> rfl
  | _ => rfl

/-! ### Rule by rule -/

/-- Makes `name` a nonterminal and appends rules to those it has. -/
def addRules (g : Grammar) (name : String) (rules : List Rule) : Grammar :=
  rules.foldl (·.addRule name ·) (g.addNonterminal name)

/-- Appends the rules of a document to those of `name`, each as soon as it is decoded. -/
def addRulesOfJson (g : Grammar) (name : String) : Json → Except ShapeError Grammar
  | .list rules =>
      rules.zipIdx.foldlM
        (fun g (rule, index) => do return g.addRule name (← ruleOfJson name index rule))
        (g.addNonterminal name)
  | v => .error (.notRules name v.kind)

/-- The grammar of a document, built member by member and rule by rule. -/
def assemble : Json → Except ShapeError Grammar
  | .object members => members.foldlM (fun g (name, v) => g.addRulesOfJson name v) ∅
  | v => .error (.notObject v.kind)

theorem addRulesOfJson_eq (g : Grammar) (name : String) (v : Json) :
    g.addRulesOfJson name v = (rulesOfJson name v).map (g.addRules name) := by
  cases v with
  | list rules => exact foldlM_eq_mapM _ (fun g rule => addRule g name rule) _ _
  | _ => rfl

def addEntries (g : Grammar) (entries : List (String × List Rule)) : Grammar :=
  entries.foldl (fun g entry => g.addRules entry.1 entry.2) g

theorem assemble_object (members : List (String × Json)) :
    assemble (.object members) = (members.mapM entryOfJson).map (addEntries ∅) := by
  unfold addEntries
  rw [← foldlM_eq_mapM, assemble]
  congr 1
  funext g m
  refine (addRulesOfJson_eq g m.1 m.2).trans ?_
  rw [entryOfJson]
  cases rulesOfJson m.1 m.2 <;> rfl

theorem foldl_addRule (table : Std.ExtTreeMap String (List Rule)) (name : String) (old rules : List Rule) :
    rules.foldl (fun g rule => addRule g name rule) ⟨table.insert name old⟩ =
      ⟨table.insert name (old ++ rules)⟩ := by
  induction rules generalizing old with
  | nil => rw [List.foldl_nil, List.append_nil]
  | cons rule rules ih =>
      have step : addRule ⟨table.insert name old⟩ name rule = ⟨table.insert name (old ++ [rule])⟩ := by
        rw [addRule, Std.ExtTreeMap.getD_insert_self, Grammar.mk.injEq]
        apply Std.ExtTreeMap.ext_getElem?
        intro other
        simp only [Std.ExtTreeMap.getElem?_insert]
        split <;> rfl
      rw [List.foldl_cons, step, ih, List.append_assoc, List.singleton_append]

/-- Rules that are appended to none are the rules of the nonterminal, in the same order. -/
theorem addRules_fresh {g : Grammar} {name : String} (fresh : name ∉ g) (rules : List Rule) :
    g.addRules name rules = ⟨g.productions.insert name rules⟩ := by
  have declared : g.addNonterminal name = ⟨g.productions.insert name []⟩ := by
    rw [addNonterminal, Grammar.mk.injEq]
    apply Std.ExtTreeMap.ext_getElem?
    intro other
    rw [Std.ExtTreeMap.getElem?_insertIfNew, Std.ExtTreeMap.getElem?_insert]
    exact if_congr (and_iff_left fresh) rfl rfl
  rw [addRules, declared, foldl_addRule, List.nil_append]

theorem addEntries_fresh {entries : List (String × List Rule)} (single : (entries.map Prod.fst).Nodup)
    {g : Grammar} (fresh : ∀ entry ∈ entries, entry.1 ∉ g) :
    g.addEntries entries = ⟨g.productions.insertMany entries⟩ := by
  induction entries generalizing g with
  | nil => rw [addEntries, List.foldl_nil, Std.ExtTreeMap.insertMany_nil]
  | cons first rest ih =>
      rw [List.map_cons, List.nodup_cons] at single
      have added : g.addRules first.1 first.2 = ⟨g.productions.insert first.1 first.2⟩ :=
        addRules_fresh (fresh first List.mem_cons_self) _
      have still : ∀ entry ∈ rest, entry.1 ∉ g.addRules first.1 first.2 := by
        intro entry later
        have other : first.1 ≠ entry.1 := fun same => single.1 (same ▸ List.mem_map_of_mem later)
        rw [added]
        intro known
        rcases Std.ExtTreeMap.mem_insert.mp known with same | known
        · exact other (Std.LawfulEqCmp.compare_eq_iff_eq.mp same)
        · exact fresh entry (List.mem_cons_of_mem _ later) known
      calc g.addEntries (first :: rest)
        _ = (g.addRules first.1 first.2).addEntries rest := rfl
        _ = ⟨(g.addRules first.1 first.2).productions.insertMany rest⟩ := ih single.2 still
        _ = ⟨g.productions.insertMany (first :: rest)⟩ := by rw [added, Std.ExtTreeMap.insertMany_cons]

/-- No nonterminal has rules from two members, so appending makes the same grammar. -/
theorem assemble_eq {v : Json} (distinct : v.Distinct) : assemble v = ofJson v := by
  cases v with
  | object members =>
      rw [assemble_object, ofJson_object]
      cases decoded : members.mapM entryOfJson with
      | error => rfl
      | ok entries =>
          have written : Json.object members = .ofEntries rulesJson entries := by
            rw [← exact_rules.object, ← toOption_entries, decoded]
            rfl
          have single : (entries.map Prod.fst).Nodup := by
            rw [written] at distinct
            exact Json.distinct_ofEntries.mp distinct
          have fresh : ∀ entry ∈ entries, entry.1 ∉ (∅ : Grammar) := fun _ _ => Std.ExtTreeMap.not_mem_empty
          rw [Except.map, Except.map, addEntries_fresh single fresh, ofList,
            Std.ExtTreeMap.ofList_eq_insertMany_empty]
          rfl
  | _ => rfl

/-! ### What the documents of grammars are -/

theorem ofList_of_perm {g : Grammar} {entries : List (String × List Rule)} (same : entries.Perm g.toList) :
    ofList entries = g := by
  rw [ofList, ExtTreeMap.ofList_of_perm same]

/-- Reading the document of a grammar gives the grammar back, and only that. -/
theorem ofJson_eq_ok_iff {v : Json} (distinct : v.Distinct) {g : Grammar} :
    ofJson v = .ok g ↔ v.Reorders g.toJson := by
  rw [ofJson_eq_ok, ofJson?_eq_some, toJson_eq, Json.reorders_ofEntries]
  refine exists_congr fun entries => and_congr_right fun written => ?_
  constructor
  · rintro rfl
    have single : (entries.map Prod.fst).Nodup := by
      rw [written] at distinct
      exact Json.distinct_ofEntries.mp distinct
    exact (ExtTreeMap.toList_ofList_perm single).symm
  · exact fun same => (ofList_of_perm same).symm

/-- Reading inverts writing. A value whose members have different names is accepted with a
    grammar exactly if it is what the grammar is written as, members in any order, and is
    rejected if it is no grammar. Decoding by shape and appending rule after rule accept the
    same values with the same grammars. -/
theorem ofJson_inverts {v : Json} (distinct : v.Distinct) :
    (∀ g : Grammar, ofJson v = .ok g ↔ v.Reorders g.toJson) ∧
    ((∀ g : Grammar, ¬ v.Reorders g.toJson) → ∃ why, ofJson v = .error why) ∧
    (∀ g : Grammar, ofJson v = .ok g ↔ ofJson? v = some g) ∧
    assemble v = ofJson v := by
  refine ⟨fun g => ofJson_eq_ok_iff distinct, fun none => ?_, fun g => ofJson_eq_ok, assemble_eq distinct⟩
  cases read : ofJson v with
  | error why => exact ⟨why, rfl⟩
  | ok g => exact absurd ((ofJson_eq_ok_iff distinct).mp read) (none g)

theorem ofJson_inverts_unsorted :
    (Json.object [("é", .list []), ("S", .list [.list [.text "", .text "é"], .list []])]).Reorders
      (ofList [("é", []), ("S", [["", "é"], []])]).toJson :=
  ((ofJson_inverts (by simp [Json.Distinct])).1 _).mp rfl

end Grammar

end WordWalk
