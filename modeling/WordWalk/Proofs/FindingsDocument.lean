import Mathlib.Data.List.Sort
import Mathlib.Data.String.Basic
import WordWalk.Findings
import WordWalk.Proofs.PrettyForm

/-! # The document of findings

Whatever a run found out can be told from its document: the warnings from their wording, since a node
stands between fixed texts and a limit ends where a fixed text begins, and the nodes in reach from
their list, since a set has one ascending list of its members.
-/

namespace WordWalk

/-! ## Wordings -/

theorem join_ne {a b : String} {c d : Char} (common cs ds : List Char) (ha : a.toList = common ++ c :: cs)
    (hb : b.toList = common ++ d :: ds) (other : c ≠ d) (xs ys : List String) :
    String.join (a :: xs) ≠ String.join (b :: ys) := by
  intro same
  have chars := congrArg String.toList same
  rw [String.join_cons, String.join_cons, String.toList_append, String.toList_append, ha, hb,
    List.append_assoc, List.append_assoc] at chars
  exact other (List.cons.inj (List.append_cancel_left chars)).1

/-- What stands between two fixed texts is known from the whole. -/
theorem join_between_inj {before after a b : String} :
    String.join [before, a, after] = String.join [before, b, after] ↔ a = b := by
  simp only [String.join_cons, String.append_right_inj, String.append_left_inj]

namespace Truncation

theorem text_inj {a b : Truncation} : a.text = b.text ↔ a = b := by
  constructor
  · intro same
    cases a with
    | length n =>
        cases b with
        | length m => rw [number_text_inj.mp (join_between_inj.mp same)]
        | states m => exact absurd same (join_ne [] _ _ rfl rfl (by decide) _ _)
    | states n =>
        cases b with
        | length m => exact absurd same (join_ne [] _ _ rfl rfl (by decide) _ _)
        | states m => rw [number_text_inj.mp (join_between_inj.mp same)]
  · intro same
    rw [same]

end Truncation

namespace Warning

/-- A warning is known from its wording, whatever the name of the node in it looks like. -/
theorem text_inj {a b : Warning} : a.text = b.text ↔ a = b := by
  -- One begins with `St`, the other one with `Se`.
  have apart (node : String) (why : Truncation) : (unknownStart node).text ≠ (truncated why).text :=
    join_ne ['S'] _ _ rfl rfl (by decide) _ _
  constructor
  · intro same
    cases a with
    | unknownStart node =>
        cases b with
        | unknownStart other => rw [join_between_inj.mp same]
        | truncated why => exact absurd same (apart node why)
    | truncated why =>
        cases b with
        | unknownStart node => exact absurd same.symm (apart node why)
        | truncated other =>
            rw [text, text, parts, parts, String.join_cons, String.join_cons, String.append_right_inj] at same
            rw [Truncation.text_inj.mp same]
  · intro same
    rw [same]

end Warning

/-! ## Documents -/

namespace Json

theorem ofTexts_inj {xs ys : List String} : ofTexts xs = ofTexts ys ↔ xs = ys := by
  rw [ofTexts, ofTexts, Json.list.injEq]
  apply List.map_inj_right
  intro a b
  exact Json.text.inj

theorem whole_ofTexts (xs : List String) : Whole (ofTexts xs) := by
  apply Whole.list
  intro item member
  obtain ⟨s, -, same⟩ := List.mem_map.mp member
  exact same ▸ Whole.text s

end Json

namespace Route

theorem toJson_inj {r s : Route} : r.toJson = s.toJson ↔ r = s := by
  cases r
  cases s
  simp [toJson, Json.ofTexts_inj]

theorem whole_toJson (r : Route) : r.toJson.Whole := by
  apply Json.Whole.object
  intro m member
  cases member with
  | head => exact Json.whole_ofTexts r.nodes
  | tail _ member =>
      cases member with
      | head => exact Json.whole_ofTexts r.labels
      | tail _ none => cases none

end Route

namespace NodeSet

variable {s t : NodeSet}

theorem sorted_perm (s : NodeSet) : s.sorted.Perm s.nodes := List.mergeSort_perm s.nodes _

theorem mem_sorted {node : String} : node ∈ s.sorted ↔ node ∈ s := s.sorted_perm.mem_iff

theorem sorted_ascending (s : NodeSet) : s.sorted.Pairwise (· ≤ ·) := List.pairwise_mergeSort' (· ≤ ·) s.nodes

theorem sorted_strict (s : NodeSet) : s.sorted.Pairwise (· < ·) := by
  have distinct : s.sorted.Nodup := s.sorted_perm.nodup_iff.mpr s.distinct
  exact (s.sorted_ascending.and distinct).imp fun both => lt_of_le_of_ne both.1 both.2

/-- Sorting forgets the order in which a set was listed, and nothing else. -/
theorem sorted_inj : s.sorted = t.sorted ↔ ∀ node, node ∈ s ↔ node ∈ t := by
  constructor
  · intro same node
    rw [← mem_sorted, same, mem_sorted]
  · intro same
    have nodes : s.nodes.Perm t.nodes := (List.perm_ext_iff_of_nodup s.distinct t.distinct).mpr same
    have perm : s.sorted.Perm t.sorted := s.sorted_perm.trans (nodes.trans t.sorted_perm.symm)
    exact perm.eq_of_pairwise (fun _ _ _ _ => le_antisymm) s.sorted_ascending t.sorted_ascending

end NodeSet

namespace Findings

variable {f g : Findings}

theorem whole_toJson (f : Findings) : f.toJson.Whole := by
  have paths : (Json.list (f.report.routes.map Route.toJson)).Whole := by
    apply Json.Whole.list
    intro item member
    obtain ⟨r, -, same⟩ := List.mem_map.mp member
    exact same ▸ r.whole_toJson
  apply Json.Whole.object
  simp only [List.forall_mem_cons, List.not_mem_nil, false_implies, implies_true, and_true]
  exact ⟨.text _, .text _, paths, Json.whole_ofTexts _, .integer _, .bool _, Json.whole_ofTexts _⟩

theorem isComplete_iff (report : Report) :
    report.isComplete = true ↔ ∀ w ∈ report.warnings, ∀ why, w ≠ .truncated why := by
  rw [Report.isComplete, Report.truncation?, Option.isNone_iff_eq_none, List.findSome?_eq_none_iff]
  apply forall₂_congr
  intro w _
  cases w <;> simp [Warning.truncation?]

theorem toJson_inj :
    f.toJson = g.toJson ↔ f.source = g.source ∧ f.target = g.target ∧ f.report = g.report ∧
      ∀ node, node ∈ f.reachable ↔ node ∈ g.reachable := by
  rw [← NodeSet.sorted_inj]
  have routes : f.report.routes.map Route.toJson = g.report.routes.map Route.toJson ↔
      f.report.routes = g.report.routes := List.map_inj_right fun _ _ => Route.toJson_inj.mp
  have warnings : f.report.warnings.map Warning.text = g.report.warnings.map Warning.text ↔
      f.report.warnings = g.report.warnings := List.map_inj_right fun _ _ => Warning.text_inj.mp
  constructor
  · intro same
    simp only [toJson, Json.object.injEq, List.cons.injEq, Prod.mk.injEq, true_and, Json.text.injEq,
      Json.list.injEq, routes, Json.ofTexts_inj, warnings, Json.number.injEq, Number.integer.injEq,
      Int.natCast_inj, and_true] at same
    obtain ⟨source, target, found, reachable, expanded, -, told⟩ := same
    have report : f.report = g.report := by
      calc f.report = ⟨f.report.routes, f.report.expanded, f.report.warnings⟩ := rfl
        _ = ⟨g.report.routes, g.report.expanded, g.report.warnings⟩ := by rw [found, expanded, told]
        _ = g.report := rfl
    exact ⟨source, target, report, reachable⟩
  · intro ⟨source, target, report, reachable⟩
    rw [toJson, toJson, source, target, report, reachable]

/-- The document loses nothing: findings with one rendering are the same findings, whatever names and
    labels occur in them. It is complete unless a warning tells of a truncation, and lists the nodes in
    reach once each, in ascending order. -/
theorem rendering_lossless (f g : Findings) :
    (f.render true = g.render true ↔ f.source = g.source ∧ f.target = g.target ∧ f.report = g.report ∧
      ∀ node, node ∈ f.reachable ↔ node ∈ g.reachable) ∧
    ∃ members complete nodes, f.render true = (Json.object members).pretty ++ "\n" ∧
      members.lookup "complete" = some (.bool complete) ∧
      (complete = true ↔ ∀ w ∈ f.report.warnings, ∀ why, w ≠ .truncated why) ∧
      members.lookup "reachable" = some (.ofTexts nodes) ∧
      nodes.Pairwise (· < ·) ∧ ∀ node, node ∈ nodes ↔ node ∈ f.reachable := by
  constructor
  · have shown (h : Findings) : h.render true = h.toJson.pretty ++ "\n" := rfl
    rw [shown, shown, String.append_left_inj, Json.pretty_inj f.whole_toJson g.whole_toJson, toJson_inj]
  · refine ⟨_, _, _, rfl, rfl, isComplete_iff f.report, rfl, f.reachable.sorted_strict, ?_⟩
    exact fun node => NodeSet.mem_sorted

end Findings

end WordWalk
