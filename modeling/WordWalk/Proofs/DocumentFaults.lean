import WordWalk.Proofs.GrammarDocument
import WordWalk.Proofs.Reading

/-! # Which fault of a document is reported

A document that is no grammar is described by one fault. Nonterminals are gone through in the
order of their names, whatever order the text has, and the rules of a nonterminal and the
symbols of a rule in the order given. So what is reported is the first fault, also when
a later one concerns more of the document.
-/

namespace WordWalk

namespace Json

/-- The members of an object come in the order of their names. Other values have no members. -/
def Ascending : Json → Prop
  | .object members => members.Pairwise fun m n => m.1 < n.1
  | _ => True

def IsRule (v : Json) : Prop := ∃ symbols, v = .list symbols ∧ ∀ s ∈ symbols, s.kind = .text

def IsRules (v : Json) : Prop := ∃ rules, v = .list rules ∧ ∀ r ∈ rules, r.IsRule

/-- Where the value of a nonterminal goes wrong: as a whole, or from one of its items on. -/
inductive FaultyAt : Json → Option Nat → Prop
  | whole {v : Json} (other : v.kind ≠ .list) : FaultyAt v none
  | rule {rules i v} (first : FirstFailing IsRule rules i v) : FaultyAt (.list rules) (some i)

theorem Ascending.distinct {v : Json} (h : v.Ascending) : v.Distinct := by
  cases v with
  | object members =>
      refine List.pairwise_map.mpr (List.Pairwise.imp (fun less same => ?_) h)
      exact String.lt_irrefl _ (same ▸ less)
  | _ => trivial

/-- Only one order of the members is ascending. -/
theorem Ascending.eq_of_reorders {v w : Json} (h : v.Ascending) (k : w.Ascending) (same : v.Reorders w) :
    v = w := by
  cases v with
  | object members =>
      cases w with
      | object others =>
          refine congrArg object (List.Perm.eq_of_pairwise (fun a b _ _ before after => ?_) h k same)
          exact absurd after (String.lt_asymm before)
      | _ => exact nomatch same
  | _ => exact same

theorem ascending_ofMembers (members : List (String × Json)) : (ofMembers members).Ascending := by
  have sorted : (Std.TreeMap.ofList members).toList.Pairwise (fun m n => compare m.1 n.1 = .lt) :=
    Std.TreeMap.ordered_keys_toList
  exact sorted.imp fun less => compareOfLessAndEq_eq_lt.mp less

/-- Whatever order the members have in a text, they come in the order of their names. -/
theorem ascending_parse {document : String} {v : Json} (parsed : parse document = .ok v) : v.Ascending := by
  cases v with
  | object members =>
      obtain ⟨all, _, kept⟩ := parse_eq_ok_object.mp parsed
      exact kept ▸ ascending_ofMembers all
  | _ => trivial

theorem isRule_list {symbols : List Json} : (list symbols).IsRule ↔ ∀ s ∈ symbols, s.kind = .text := by
  simp [IsRule]

theorem isRules_list {rules : List Json} : (list rules).IsRules ↔ ∀ r ∈ rules, r.IsRule := by
  simp [IsRules]

end Json

namespace ShapeError

open Json (IsRule IsRules)

/-- The first fault of a rule at its place. -/
inductive OfRule (nonterminal : String) (index : Nat) : Json → ShapeError → Prop
  | notRule {v : Json} (other : v.kind ≠ .list) : OfRule nonterminal index v (.notRule nonterminal index v.kind)
  | notSymbol {symbols k s} (first : FirstFailing (fun s : Json => s.kind = .text) symbols k s) :
      OfRule nonterminal index (.list symbols) (.notSymbol nonterminal index s)

/-- The first fault of the rules of a nonterminal. -/
inductive OfRules (nonterminal : String) : Json → ShapeError → Prop
  | notRules {v : Json} (other : v.kind ≠ .list) : OfRules nonterminal v (.notRules nonterminal v.kind)
  | rule {rules i v why} (first : FirstFailing IsRule rules i v) (fault : OfRule nonterminal i v why) :
      OfRules nonterminal (.list rules) why

/-- The first fault of a document. -/
inductive OfDocument : Json → ShapeError → Prop
  | notObject {v : Json} (other : v.kind ≠ .object) : OfDocument v (.notObject v.kind)
  | rules {members name v why} (member : (name, v) ∈ members)
      (smaller : ∀ m ∈ members, m.1 < name → m.2.IsRules) (fault : OfRules name v why) :
      OfDocument (.object members) why

/-- The nonterminal that a fault is about, and its rule if the fault is within one. -/
def place? : ShapeError → Option (String × Option Nat)
  | notObject _ => none
  | notRules nonterminal _ => some (nonterminal, none)
  | notRule nonterminal index _ | notSymbol nonterminal index _ => some (nonterminal, some index)

theorem message_eq {why : ShapeError} {name : String} {place : Option Nat}
    (told : why.place? = some (name, place)) :
    why.message = s!"Invalid production rule for non-terminal '{name}': " ++ why.reason := by
  cases why <;> cases told <;> rfl

end ShapeError

namespace Grammar

open Json (IsRule IsRules)

variable {nonterminal : String} {index : Nat} {v : Json} {why : ShapeError}

theorem symbolOfJson_ok : (∃ name, symbolOfJson nonterminal index v = .ok name) ↔ v.kind = .text := by
  cases v <;> simp [symbolOfJson, Json.kind]

theorem symbolOfJson_eq_error :
    symbolOfJson nonterminal index v = .error why ↔ v.kind ≠ .text ∧ why = .notSymbol nonterminal index v := by
  cases v <;> simp [symbolOfJson, Json.kind, eq_comm]

theorem ruleOfJson_ok : (∃ rule, ruleOfJson nonterminal index v = .ok rule) ↔ v.IsRule := by
  cases v with
  | list symbols =>
      rw [ruleOfJson, exists_mapM_eq_ok, Json.isRule_list]
      exact forall₂_congr fun _ _ => symbolOfJson_ok
  | _ => simp [ruleOfJson, IsRule]

theorem ruleOfJson_eq_error :
    ruleOfJson nonterminal index v = .error why ↔ ShapeError.OfRule nonterminal index v why := by
  constructor
  · intro stopped
    cases v with
    | list symbols =>
        obtain ⟨k, s, first, fault⟩ := mapM_eq_error.mp stopped
        obtain ⟨_, rfl⟩ := symbolOfJson_eq_error.mp fault
        exact .notSymbol ((FirstFailing.congr fun _ => symbolOfJson_ok).mp first)
    | _ =>
        cases stopped
        exact .notRule nofun
  · rintro (other | first)
    · cases v with
      | list => exact absurd rfl other
      | _ => rfl
    · refine mapM_eq_error.mpr ⟨_, _, (FirstFailing.congr fun _ => symbolOfJson_ok).mpr first, ?_⟩
      exact symbolOfJson_eq_error.mpr ⟨first.fails, rfl⟩

theorem ofRule_iff : (∃ why, ShapeError.OfRule nonterminal index v why) ↔ ¬ v.IsRule := by
  simp only [← ruleOfJson_eq_error, exists_error_iff, ruleOfJson_ok]

theorem rulesOfJson_ok : (∃ rules, rulesOfJson nonterminal v = .ok rules) ↔ v.IsRules := by
  cases v with
  | list rules =>
      rw [rulesOfJson, exists_mapM_eq_ok, Json.isRules_list]
      simp only [ruleOfJson_ok]
      rw [← List.forall_mem_map (f := Prod.fst) (P := IsRule), List.zipIdx_map_fst]
  | _ => simp [rulesOfJson, IsRules]

theorem rulesOfJson_eq_error :
    rulesOfJson nonterminal v = .error why ↔ ShapeError.OfRules nonterminal v why := by
  have good (p : Json × Nat) : (∃ rule, ruleOfJson nonterminal p.2 p.1 = .ok rule) ↔ p.1.IsRule := ruleOfJson_ok
  constructor
  · intro stopped
    cases v with
    | list rules =>
        obtain ⟨i, ⟨v, j⟩, first, fault⟩ := mapM_eq_error.mp stopped
        obtain ⟨rfl, first⟩ := firstFailing_zipIdx.mp ((FirstFailing.congr good).mp first)
        exact .rule first (ruleOfJson_eq_error.mp fault)
    | _ =>
        cases stopped
        exact .notRules nofun
  · rintro (other | ⟨first, fault⟩)
    · cases v with
      | list => exact absurd rfl other
      | _ => rfl
    · refine mapM_eq_error.mpr ⟨_, (_, _), (FirstFailing.congr good).mpr (firstFailing_zipIdx.mpr ⟨rfl, first⟩), ?_⟩
      exact ruleOfJson_eq_error.mpr fault

theorem ofRules_iff : (∃ why, ShapeError.OfRules nonterminal v why) ↔ ¬ v.IsRules := by
  simp only [← rulesOfJson_eq_error, exists_error_iff, rulesOfJson_ok]

theorem entryOfJson_ok {m : String × Json} : (∃ entry, entryOfJson m = .ok entry) ↔ m.2.IsRules := by
  have rules : (∃ rules, rulesOfJson m.1 m.2 = .ok rules) ↔ m.2.IsRules := rulesOfJson_ok
  simp only [← rules, entryOfJson, bind_eq_ok]
  constructor
  · rintro ⟨_, rules, read, _⟩
    exact ⟨rules, read⟩
  · rintro ⟨rules, read⟩
    exact ⟨_, rules, read, rfl⟩

theorem entryOfJson_eq_error {m : String × Json} :
    entryOfJson m = .error why ↔ ShapeError.OfRules m.1 m.2 why := by
  rw [← rulesOfJson_eq_error, entryOfJson]
  cases rulesOfJson m.1 m.2 <;> simp [bind, Except.bind, pure, Except.pure]

theorem ofJson_object_eq_error {members : List (String × Json)} (ascending : (Json.object members).Ascending) :
    ofJson (.object members) = .error why ↔ ∃ m ∈ members,
      (∀ n ∈ members, n.1 < m.1 → n.2.IsRules) ∧ ShapeError.OfRules m.1 m.2 why := by
  -- Members are sorted by name, so the first one that stops the reader is the least one that is wrong.
  have least (m : String × Json) :
      (∃ i, FirstFailing (fun m : String × Json => ∃ entry, entryOfJson m = .ok entry) members i m) ↔
        m ∈ members ∧ ¬ m.2.IsRules ∧ ∀ n ∈ members, n.1 < m.1 → n.2.IsRules := by
    rw [exists_firstFailing_iff (fun _ _ => String.lt_asymm) ascending]
    simp only [entryOfJson_ok]
  rw [ofJson_object, map_eq_error, mapM_eq_error]
  simp only [entryOfJson_eq_error]
  constructor
  · rintro ⟨i, m, first, fault⟩
    obtain ⟨member, _, smaller⟩ := (least m).mp ⟨i, first⟩
    exact ⟨m, member, smaller, fault⟩
  · rintro ⟨m, member, smaller, fault⟩
    obtain ⟨i, first⟩ := (least m).mpr ⟨member, ofRules_iff.mp ⟨why, fault⟩, smaller⟩
    exact ⟨i, m, first, fault⟩

/-- The reader reports the first fault of a document. -/
theorem ofJson_eq_error (ascending : v.Ascending) : ofJson v = .error why ↔ ShapeError.OfDocument v why := by
  constructor
  · intro stopped
    cases v with
    | object members =>
        obtain ⟨_, member, smaller, fault⟩ := (ofJson_object_eq_error ascending).mp stopped
        exact .rules member smaller fault
    | _ =>
        cases stopped
        exact .notObject nofun
  · rintro (other | ⟨member, smaller, fault⟩)
    · cases v with
      | object => exact absurd rfl other
      | _ => rfl
    · exact (ofJson_object_eq_error ascending).mpr ⟨_, member, smaller, fault⟩

theorem ofJson_eq_ok_iff_written (ascending : v.Ascending) {g : Grammar} : ofJson v = .ok g ↔ v = g.toJson := by
  have sorted : g.toJson.Ascending := by
    have names : g.toList.Pairwise (fun m n => compare m.1 n.1 = .lt) := Std.ExtTreeMap.ordered_keys_toList
    exact List.pairwise_map.mpr (names.imp fun less => compareOfLessAndEq_eq_lt.mp less)
  rw [ofJson_eq_ok_iff ascending.distinct]
  constructor
  · exact fun same => ascending.eq_of_reorders sorted same
  · rintro rfl
    exact Json.reorders_refl _

/-- The place of the first fault is the first place where the rules go wrong. -/
theorem faultyAt_iff {name : String} {place : Option Nat} :
    (∃ why, ShapeError.OfRules nonterminal v why ∧ why.place? = some (name, place)) ↔
      nonterminal = name ∧ v.FaultyAt place := by
  constructor
  · rintro ⟨why, other | ⟨first, fault⟩, told⟩
    · cases told
      exact ⟨rfl, .whole other⟩
    · cases fault <;> cases told <;> exact ⟨rfl, .rule first⟩
  · rintro ⟨rfl, other | first⟩
    · exact ⟨_, .notRules other, rfl⟩
    · obtain ⟨why, fault⟩ := ofRule_iff.mpr first.fails
      refine ⟨why, .rule first fault, ?_⟩
      cases fault <;> rfl

/-- A value is refused exactly if no grammar is written like it, with the first fault there is: of all
    nonterminals whose values are wrong the least one counts, then the value as a whole, then
    the first rule that is wrong and its first symbol that is no string. So a fault is reported for
    a place exactly if it is one and all that comes before is fine. Members are in ascending
    order in every value that was read from a text, and appending rule after rule reports
    the same faults. -/
theorem ofJson_first_fault :
    (∀ document v, Json.parse document = .ok v → v.Ascending) ∧
    ∀ v : Json, v.Ascending →
      ((∃ why, ofJson v = .error why) ↔ ∀ g : Grammar, v ≠ g.toJson) ∧
      (∀ why, ofJson v = .error why ↔ ShapeError.OfDocument v why) ∧
      (∀ members, v = .object members → ∀ name place,
        (∃ why, ofJson v = .error why ∧ why.place? = some (name, place)) ↔
          ∃ value, (name, value) ∈ members ∧ (∀ m ∈ members, m.1 < name → m.2.IsRules) ∧
            value.FaultyAt place) ∧
      (∀ members, v = .object members → ∀ name rules index symbols k s,
        (name, .list rules) ∈ members → (∀ m ∈ members, m.1 < name → m.2.IsRules) →
        FirstFailing IsRule rules index (.list symbols) →
        FirstFailing (fun s : Json => s.kind = .text) symbols k s →
        ∃ why, ofJson v = .error why ∧
          why.reason = s!"rule {index} contains non-string symbol " ++ s.compact ∧
          why.message = s!"Invalid production rule for non-terminal '{name}': " ++ why.reason) ∧
      assemble v = ofJson v := by
  refine ⟨fun document v => Json.ascending_parse, fun v ascending => ⟨?_, fun why => ofJson_eq_error ascending,
    ?_, ?_, assemble_eq ascending.distinct⟩⟩
  · simp only [exists_error_iff, ofJson_eq_ok_iff_written ascending, not_exists, ne_eq]
  · rintro members rfl name place
    simp only [ofJson_object_eq_error ascending]
    constructor
    · rintro ⟨why, ⟨m, member, smaller, fault⟩, told⟩
      obtain ⟨rfl, faulty⟩ := faultyAt_iff.mp ⟨why, fault, told⟩
      exact ⟨m.2, member, smaller, faulty⟩
    · rintro ⟨value, member, smaller, faulty⟩
      obtain ⟨why, fault, told⟩ := faultyAt_iff.mpr ⟨rfl, faulty⟩
      exact ⟨why, ⟨_, member, smaller, fault⟩, told⟩
  · rintro members rfl name rules index symbols k s member smaller first earliest
    have fault : ShapeError.OfRules name (.list rules) (.notSymbol name index s) := .rule first (.notSymbol earliest)
    exact ⟨_, (ofJson_object_eq_error ascending).mpr ⟨_, member, smaller, fault⟩, rfl, ShapeError.message_eq rfl⟩

end Grammar

/-- A document with faults in all its members, the least nonterminal being the last one. -/
def Json.misshapen : String :=
  "\x7b\"b\": [[\"x\"], [null]], \"é\": \"s\", \"a\": [[\"y\"], [\"z\", null, true], \"w\"]\x7d"

theorem ofJson_first_fault_unsorted : ∃ v, Json.parse Json.misshapen = .ok v ∧ (∀ g : Grammar, v ≠ g.toJson) ∧
    ShapeError.OfDocument v (.notSymbol "a" 1 .null) := by
  have parsed : Json.parse Json.misshapen = .ok (.object
      [("a", .list [.list [.text "y"], .list [.text "z", .null, .bool true], .text "w"]),
        ("b", .list [.list [.text "x"], .list [.null]]), ("é", .text "s")]) := rfl
  obtain ⟨refused, faults, _⟩ := Grammar.ofJson_first_fault.2 _ (Grammar.ofJson_first_fault.1 _ _ parsed)
  exact ⟨_, parsed, refused.mp ⟨.notSymbol "a" 1 .null, rfl⟩, (faults _).mp rfl⟩

end WordWalk
