import WordWalk.Proofs.FlatChart
import WordWalk.Search.Event

/-! # What is told while a chart is filled

Whoever listens while a word is recognized is told of every label and of every longer span that
something derives, in the order in which their cells are filled, and then of the verdict. A cell is told
as it is in the end.
-/

namespace WordWalk

namespace FlatChart

theorem order_succ (n : Nat) :
    order (n + 1) = (List.range (n + 1)).map (fun i => (i, i)) ++
      (List.range n).flatMap fun k => (List.range (n + 1 - (k + 1))).map fun i => (i, i + (k + 1)) := by
  rw [order]
  conv_lhs => rw [List.range_succ_eq_map, List.flatMap_cons, List.flatMap_map]
  rfl

theorem told_single (index : Index) (word : List String) (i : Nat) :
    told index true word (i, i) =
      [.seeded i (index.namesOf ((Chart.ofWord index word).cell i (i - i)).toList)] := by
  rw [told, if_pos rfl, event?, if_pos rfl]
  rfl

theorem told_row (index : Index) (word : List String) (k bound : Nat) :
    ((List.range bound).map fun i => (i, i + (k + 1))).flatMap (told index true word) =
      ((List.range bound).filterMap fun i =>
        if ((Chart.ofWord index word).cell i (k + 1)).isEmpty then none else some (i, i + k + 1)).map
        fun s => .filled s.1 s.2 (index.namesOf ((Chart.ofWord index word).cell s.1 (s.2 - s.1)).toList) := by
  rw [List.flatMap_map, List.map_filterMap, List.filterMap_eq_flatMap_toList]
  congr 1
  funext i
  have longer : ¬ i = i + (k + 1) := by omega
  have extra : i + (k + 1) - i = k + 1 := by omega
  rw [told, if_pos rfl, event?, if_neg longer, extra]
  cases ((Chart.ofWord index word).cell i (k + 1)).isEmpty with
  | true => rfl
  | false => simp [Nat.add_assoc]

/-- Filling the cells one by one tells what the full chart would tell. -/
theorem events_eq (index : Index) {word : List String} (nonempty : word ≠ []) :
    (order word.length).flatMap (told index true word) ++ [.finished word.length (index.accepts word)] =
      index.recognitionEvents word := by
  have verdict : (Chart.ofWord index word).accepts index word.length = index.accepts word := rfl
  rw [Index.recognitionEvents, Chart.events_eq _ _ (mt List.length_eq_zero_iff.mp nonempty), verdict]
  obtain ⟨n, length⟩ := Nat.exists_eq_succ_of_ne_zero (mt List.length_eq_zero_iff.mp nonempty)
  rw [length, Nat.succ_eq_add_one, order_succ, List.flatMap_append, List.flatMap_map, List.flatMap_assoc,
    Chart.derivable, List.map_flatMap, List.map_eq_flatMap]
  simp only [told_single, told_row]
  rfl

end FlatChart

namespace Index

theorem seeded_text (i : Nat) (names : List String) : (ChartEvent.seeded i names).text =
    "CYK Table[" ++ toString i ++ "][" ++ toString i ++ "] initialized with: \x7b" ++ ", ".intercalate names ++
      "\x7d" := by
  simp [ChartEvent.text, ChartEvent.parts, String.join_cons, String.append_assoc]

theorem filled_text (i j : Nat) (names : List String) : (ChartEvent.filled i j names).text =
    "CYK Table[" ++ toString i ++ "][" ++ toString j ++ "] updated with: \x7b" ++ ", ".intercalate names ++
      "\x7d" := by
  simp [ChartEvent.text, ChartEvent.parts, String.join_cons, String.append_assoc]

theorem finished_text (length : Nat) (accepted : Bool) : (ChartEvent.finished length accepted).text =
    "CYK parse of " ++ toString length ++ " label(s): " ++ if accepted then "accepted" else "rejected" := by
  simp [ChartEvent.text, ChartEvent.parts, String.join_cons, String.append_assoc]

/-- A proxy derives its own terminal alone, and the helper of a tail two labels at least. -/
theorem helpers_placed (g : Grammar) {word : List String} {i j id : Nat} (ordered : i ≤ j) (inside : j < word.length)
    (derives : (ofGrammar g).Derives id (span word i (j - i))) :
    (∀ label, (label, id) ∈ (ofGrammar g).form.proxies → i = j ∧ word[i]? = some label) ∧
      ((ofGrammar g).isHelper id = true → id ∉ (ofGrammar g).form.proxies.map Prod.snd → i < j) := by
  obtain ⟨of, faithful, _⟩ := NormalForm.ofGrammar_faithful g
  obtain ⟨proxies, tails⟩ := NormalForm.helper_derives ((derives_iff faithful.bounded).mp derives)
  constructor
  · intro label proxy
    have single := proxies label proxy
    have length := congrArg List.length single
    rw [span_length (by omega), List.length_singleton] at length
    obtain rfl : i = j := by omega
    rw [Nat.sub_self, span_single inside] at single
    cases single
    exact ⟨rfl, List.getElem?_eq_getElem inside⟩
  · intro helper other
    rw [isHelper, Bool.and_eq_true, decide_eq_true_iff, decide_eq_true_iff] at helper
    have long := tails helper.1 helper.2 other
    rw [span_length (by omega)] at long
    omega

/-- The events of recognizing a word list what derives its labels and its longer spans. -/
theorem events_named (g : Grammar) {word : List String} (nonempty : word ≠ []) :
    ∃ (names : Nat → Nat → List String) (spans : List (Nat × Nat)),
      (∀ i j, i ≤ j → j < word.length → (ofGrammar g).Named (span word i (j - i)) (names i j)) ∧
      (∀ i j, (i, j) ∈ spans ↔
        i < j ∧ j < word.length ∧ ∃ id, (ofGrammar g).Derives id (span word i (j - i))) ∧
      spans.Pairwise Chart.Before ∧
      (ofGrammar g).recognitionEvents word =
        (List.range word.length).map (fun i => .seeded i (names i i)) ++
        spans.map (fun s => .filled s.1 s.2 (names s.1 s.2)) ++
        [.finished word.length ((ofGrammar g).accepts word)] := by
  obtain ⟨of, faithful, _⟩ := NormalForm.ofGrammar_faithful g
  have known : ∀ id word, (ofGrammar g).Derives id word → id < (ofGrammar g).nonterminalCount :=
    fun id word h => faithful.known ((derives_iff faithful.bounded).mp h)
  have cell : ∀ {i j id}, i ≤ j → j < word.length →
      (id ∈ (Chart.ofWord (ofGrammar g) word).cell i (j - i) ↔
        (ofGrammar g).Derives id (span word i (j - i))) :=
    fun _ inside => Chart.mem_cell_ofWord (by omega)
  refine ⟨_, _, fun i j ordered inside => named_cell (fun id => cell ordered inside) (known · _),
    fun i j => ?_, Chart.pairwise_derivable (Chart.ofWord (ofGrammar g) word) word.length, ?_⟩
  · rw [Chart.mem_derivable]
    refine and_congr_right fun less => and_congr_right fun inside => ?_
    simp only [cell less.le inside]
  · exact Chart.events_eq _ _ (mt List.length_eq_zero_iff.mp nonempty)

/-- A chart is exact in every cell. What is told while it is filled is one line for each label, one for
    each longer span that something derives, with the names of all that derives it, and one for the
    verdict. Nothing is told of the empty word, nor if nobody listens. -/
theorem chart_exact {policy : Policy} {g : Grammar} {index : Index} (built : build policy g = .ok index)
    (traced : Bool) (word : List String) :
    ∃ chart, FlatChart.recognize index traced word (FlatChart.blank word.length) =
        some (index.accepts word, chart) ∧
      (∀ i j, i ≤ j → j < word.length → ∃ contents, chart.contents? i j = some contents ∧ ∀ id,
        (id ∈ contents ↔ index.Derives id (span word i (j - i))) ∧
        (id ∈ contents ↔ id ∈ (Chart.ofWord index word).cell i (j - i)) ∧
        (id ∈ contents →
          (∀ label, (label, id) ∈ index.form.proxies → i = j ∧ word[i]? = some label) ∧
          (index.isHelper id = true → id ∉ index.form.proxies.map Prod.snd → i < j))) ∧
      (traced = false ∨ word = [] → chart.events = []) ∧
      (traced = true → chart.events = index.recognitionEvents word ∧
        (word ≠ [] → ∃ (names : Nat → Nat → List String) (spans : List (Nat × Nat)),
          (∀ i j, i ≤ j → j < word.length → index.Named (span word i (j - i)) (names i j)) ∧
          (∀ i j, (i, j) ∈ spans ↔ i < j ∧ j < word.length ∧ ∃ id, index.Derives id (span word i (j - i))) ∧
          spans.Pairwise Chart.Before ∧
          chart.events.map ChartEvent.text =
            (List.range word.length).map (fun i =>
              "CYK Table[" ++ toString i ++ "][" ++ toString i ++ "] initialized with: \x7b" ++
                ", ".intercalate (names i i) ++ "\x7d") ++
            spans.map (fun s =>
              "CYK Table[" ++ toString s.1 ++ "][" ++ toString s.2 ++ "] updated with: \x7b" ++
                ", ".intercalate (names s.1 s.2) ++ "\x7d") ++
            ["CYK parse of " ++ toString word.length ++ " label(s): " ++
              if index.accepts word then "accepted" else "rejected"])) := by
  obtain ⟨_, _, rfl⟩ := build_ok built
  by_cases empty : word = []
  · subst empty
    refine ⟨FlatChart.blank 0, rfl, ?_, fun _ => rfl, fun _ => ⟨rfl, fun nonempty => absurd rfl nonempty⟩⟩
    exact fun i j ordered inside => absurd inside (Nat.not_lt_zero j)
  obtain ⟨chart, run, full⟩ := FlatChart.recognize_settled (ofGrammar g) traced empty
  refine ⟨chart, run, ?_, ?_, ?_⟩
  · intro i j ordered inside
    obtain ⟨contents, found, holds⟩ := full.exact (i, j) (FlatChart.mem_order.mpr ⟨ordered, inside⟩)
    refine ⟨contents, found, fun id => ⟨holds id, (holds id).trans ?_, fun member => ?_⟩⟩
    · exact (Chart.mem_cell_ofWord (by omega)).symm
    · exact helpers_placed g ordered inside ((holds id).mp member)
  · intro unheard
    obtain rfl := unheard.resolve_right empty
    rw [full.told]
    simp [FlatChart.told]
  · intro heard
    subst heard
    have events : chart.events = (ofGrammar g).recognitionEvents word :=
      full.told.trans (FlatChart.events_eq (ofGrammar g) empty)
    refine ⟨events, fun _ => ?_⟩
    obtain ⟨names, spans, named, derivable, sorted, told⟩ := events_named g empty
    refine ⟨names, spans, named, derivable, sorted, ?_⟩
    rw [events, told]
    simp only [List.map_append, List.map_map, Function.comp_def, seeded_text, filled_text, List.map_singleton,
      finished_text]

end Index

theorem nested_cells : ∃ index, Index.build .normalize .nested = .ok index ∧
    index.nameOf? 6 = some "A#6" ∧ index.Derives 6 ["a", "b", "b"] ∧ ∀ id, ¬ index.Derives id ["a", "a"] := by
  have built : Index.build .normalize .nested = .ok (.ofGrammar .nested) := by
    have faultless : Grammar.nested.fault? .normalize = none := by decide +kernel
    rw [Index.build, faultless]
  obtain ⟨chart, -, cells, -⟩ := Index.chart_exact built true ["a", "a", "b", "b"]
  refine ⟨_, built, by decide +kernel, ?_, fun id derives => ?_⟩
  · obtain ⟨contents, -, exact⟩ := cells 1 3 (by decide) (by decide)
    exact (exact 6).1.mp ((exact 6).2.1.mpr (by decide +kernel))
  · obtain ⟨contents, -, exact⟩ := cells 0 1 (by decide) (by decide)
    have empty : ((Chart.ofWord (.ofGrammar .nested) ["a", "a", "b", "b"]).cell 0 1).isEmpty = true := by
      decide +kernel
    exact Std.TreeSet.not_mem_of_isEmpty empty ((exact id).2.1.mp ((exact id).1.mpr derives))

end WordWalk
