import WordWalk.Document.Load
import WordWalk.Proofs.GrammarDocument
import WordWalk.Proofs.ReadingBack

/-! # Documents that are written and read

Graphs and grammars survive being written as a text and read again. Grammars have two readers,
one for grammars only and one that takes any value and decodes it. The first accepts less: of
the members with one name it looks at all, the other at the last one only.
-/

namespace WordWalk

open Json.Reader

namespace Grammar

/-- The reader of grammars wants rules in every member, also if its name is repeated later. -/
theorem read_eq_ok {document : String} {g : Grammar} :
    Json.read reader document = .ok g ↔
      ∃ entries, Json.topMembers document = .ok (entries.map fun entry => (entry.1, rulesJson entry.2)) ∧
        ofList entries = g := by
  refine Json.read_map_eq_ok.trans (exists_congr fun entries => and_congr_left fun _ => ?_)
  exact Json.read_refines fun fuel => (refines_text fuel (maxDepth - 3)).listOf.listOf.objectOf fuel

/-- The reader that decodes wants rules in the last member of every name. -/
theorem parse_eq_ok {origin document : String} {g : Grammar} :
    parseGrammar origin document = .ok g ↔
      ∃ all entries, Json.topMembers document = .ok all ∧ Json.ofMembers all = .ofEntries rulesJson entries ∧
        ofList entries = g := by
  simp only [parseGrammar, bind_eq_ok, mapError_eq_ok, ofJson_eq_ok, ofJson?_eq_some]
  constructor
  · rintro ⟨v, parsed, entries, rfl, rfl⟩
    obtain ⟨all, members, kept⟩ := Json.parse_eq_ok_object.mp parsed
    exact ⟨all, entries, members, kept, rfl⟩
  · rintro ⟨all, entries, members, kept, rfl⟩
    exact ⟨_, Json.parse_eq_ok_object.mpr ⟨all, members, kept⟩, entries, rfl, rfl⟩

theorem parse_of_read {document : String} {g : Grammar} (accepted : Json.read reader document = .ok g)
    (origin : String) : parseGrammar origin document = .ok g := by
  obtain ⟨entries, members, rfl⟩ := read_eq_ok.mp accepted
  -- All members have rules, so those that stay do.
  refine parse_eq_ok.mpr ⟨_, (Std.TreeMap.ofList entries).toList, members, ?_, ?_⟩
  · rw [Json.ofMembers, TreeMap.toList_ofList_map]
    rfl
  · rw [ofList, ExtTreeMap.ofList_ofList]
    rfl

theorem read_of_parse {origin document : String} {g : Grammar} (single : Json.NamesDiffer document)
    (accepted : parseGrammar origin document = .ok g) : Json.read reader document = .ok g := by
  obtain ⟨all, entries, members, kept, rfl⟩ := parse_eq_ok.mp accepted
  -- No member was dropped: what was decoded is the whole object, in another order.
  have same : (Json.object all).Reorders (.ofEntries rulesJson entries) := by
    rw [← kept]
    exact (TreeMap.toList_ofList_perm (single all members)).symm
  obtain ⟨others, written, perm⟩ := Json.reorders_ofEntries.mp same
  cases written
  have names : (others.map Prod.fst).Nodup := by
    have distinct : (Json.ofEntries rulesJson others).Distinct := single _ members
    exact Json.distinct_ofEntries.mp distinct
  have listed : (ofList entries).toList.Perm entries :=
    ExtTreeMap.toList_ofList_perm ((perm.map Prod.fst).nodup_iff.mp names)
  exact read_eq_ok.mpr ⟨others, members, ofList_of_perm (perm.trans listed.symm)⟩

theorem parse_written {v : Json} {g : Grammar} (written : v.Reorders g.toJson) (origin : String) :
    parseGrammar origin v.compact = .ok g := by
  rw [toJson_eq, Json.reorders_ofEntries] at written
  obtain ⟨entries, rfl, perm⟩ := written
  refine parse_of_read (Json.read_map_eq_ok.mpr ⟨entries, ?_, ofList_of_perm perm⟩) origin
  exact Json.read_compact (fun fuel => (readsBack_text fuel).listOf.listOf.objectOf) entries

end Grammar

namespace Edge

theorem readsBack (fuel : Nat) : ReadsBack fuel reader toJson where
  opens _ := ⟨'[', _, rfl, rfl, by decide⟩
  reads e rest enough :=
    bind_eq_ok.mpr ⟨_, (readsBack_text fuel).pairOf.reads (e.target, e.label) rest enough, rfl⟩

end Edge

namespace Graph

theorem toJson_eq (g : Graph) : g.toJson = .ofEntries (fun edges => .list (edges.map Edge.toJson)) g.toList := rfl

theorem ofList_of_perm {g : Graph} {nodes : List (String × List Edge)} (same : nodes.Perm g.toList) :
    ofList nodes = g := by
  rw [ofList, ExtTreeMap.ofList_of_perm same]

theorem parse_written {v : Json} {g : Graph} (written : v.Reorders g.toJson) (origin : String) :
    parseGraph origin v.compact = .ok g := by
  rw [toJson_eq, Json.reorders_ofEntries] at written
  obtain ⟨nodes, rfl, perm⟩ := written
  rw [parseGraph, mapError_eq_ok]
  refine Json.read_map_eq_ok.mpr ⟨nodes, ?_, ofList_of_perm perm⟩
  exact Json.read_compact (fun fuel => (Edge.readsBack fuel).listOf.objectOf) nodes

end Graph

/-- Documents survive being written in the compact form and read again, whatever order the members
    of an object are written in. The reader that decodes accepts every text that the reader
    of grammars accepts, with the same grammar, and accepts no other as long as no name is
    repeated. -/
theorem documents_round_trip (origin : String) :
    (∀ (g : Graph) (v : Json), v.Reorders g.toJson → parseGraph origin v.compact = .ok g) ∧
    (∀ (g : Grammar) (v : Json), v.Reorders g.toJson → parseGrammar origin v.compact = .ok g) ∧
    (∀ (document : String) (g : Grammar), Json.read Grammar.reader document = .ok g →
      parseGrammar origin document = .ok g) ∧
    (∀ (document : String) (g : Grammar), Json.NamesDiffer document →
      parseGrammar origin document = .ok g → Json.read Grammar.reader document = .ok g) :=
  ⟨fun _ _ written => Graph.parse_written written origin, fun _ _ written => Grammar.parse_written written origin,
    fun _ _ accepted => Grammar.parse_of_read accepted origin,
    fun _ _ single accepted => Grammar.read_of_parse single accepted⟩

theorem documents_round_trip_escapes :
    parseGraph "" (Graph.ofList [("\"", [⟨"\\", "\x01"⟩]), ("", [])]).toJson.compact =
      .ok (Graph.ofList [("\"", [⟨"\\", "\x01"⟩]), ("", [])]) ∧
    parseGrammar "" (Grammar.ofList [("S", [["\n", ""], []])]).toJson.compact =
      .ok (Grammar.ofList [("S", [["\n", ""], []])]) ∧
    parseGrammar "" "\x7b\"S\": [], \"S\": [[\"\\u00e9\"]]\x7d" = .ok (Grammar.ofList [("S", [["é"]])]) ∧
    Json.read Grammar.reader "\x7b\"S\": [[]], \"A\": []\x7d" = .ok (Grammar.ofList [("A", []), ("S", [[]])]) := by
  obtain ⟨graphs, grammars, decoded, checked⟩ := documents_round_trip ""
  refine ⟨graphs _ _ (Json.reorders_refl _), grammars _ _ (Json.reorders_refl _),
    decoded _ _ (toOption_eq_some.mp (by decide +kernel)),
    checked _ _ (fun members read => ?_) (toOption_eq_some.mp (by decide +kernel))⟩
  have names : (Json.topMembers "\x7b\"S\": [[]], \"A\": []\x7d").toOption.map (·.map Prod.fst) =
      some ["S", "A"] := by decide +kernel
  rw [read] at names
  have listed : members.map Prod.fst = ["S", "A"] := Option.some.inj names
  rw [listed]
  decide

/-- Decoding does not look at a member whose name is repeated later. -/
example : (parseGrammar "" "\x7b\"S\": 0, \"S\": []\x7d").isOk ∧
    ¬ (Json.read Grammar.reader "\x7b\"S\": 0, \"S\": []\x7d").isOk := by decide +kernel

end WordWalk
