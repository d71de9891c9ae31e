import WordWalk.Proofs.Provenance
import WordWalk.Proofs.Recognition

/-! # Cells and what is told of them

A cell holds every number that derives its span, helpers included. So the events of recognizing a
word list the derivable spans with the names of all that derives them.
-/

namespace WordWalk

namespace NormalForm

variable {g : Grammar} {form : NormalForm} {of : Nat → List String}

theorem Faithful.known (h : Faithful g form of) {id : Nat} {word : List String}
    (derives : form.Derives id word) : id < form.names.size := by
  cases derives with
  | lexical rule => exact (h.lexical _ rule).1
  | unit rule => exact Nat.lt_of_lt_of_le (h.unit _ rule).1 h.userCount_le
  | pair rule => exact (h.pair _ rule).1

end NormalForm

namespace Chart

/-- The spans of two and more labels whose cells are not empty, the shorter ones first. -/
def derivable (chart : Chart) (length : Nat) : List (Nat × Nat) :=
  (List.range (length - 1)).flatMap fun k =>
    (List.range (length - (k + 1))).filterMap fun i =>
      if (chart.cell i (k + 1)).isEmpty then none else some (i, i + k + 1)

theorem mem_derivable {chart : Chart} {length i j : Nat} :
    (i, j) ∈ chart.derivable length ↔ i < j ∧ j < length ∧ ∃ id, id ∈ chart.cell i (j - i) := by
  simp only [derivable, List.mem_flatMap, List.mem_filterMap, List.mem_range]
  constructor
  · rintro ⟨k, _, first, bound, found⟩
    split at found
    · cases found
    · rename_i filled
      cases found
      have extra : i + k + 1 - i = k + 1 := by omega
      rw [extra]
      exact ⟨by omega, by omega, Std.TreeSet.isEmpty_eq_false_iff_exists_mem.mp (by simpa using filled)⟩
  · rintro ⟨less, inside, filled⟩
    have extra : j - i - 1 + 1 = j - i := by omega
    refine ⟨j - i - 1, by omega, i, by omega, ?_⟩
    rw [extra, Std.TreeSet.isEmpty_eq_false_iff_exists_mem.mpr filled]
    simp only [Bool.false_eq_true, if_false, Option.some.injEq, Prod.mk.injEq, true_and]
    omega

/-- One span comes before another if it is shorter, or as long and further to the left. -/
def Before (s t : Nat × Nat) : Prop := s.2 - s.1 < t.2 - t.1 ∨ s.2 - s.1 = t.2 - t.1 ∧ s.1 < t.1

theorem pairwise_derivable (chart : Chart) (length : Nat) : (chart.derivable length).Pairwise Before := by
  have span : ∀ {k i : Nat} {s : Nat × Nat},
      (if (chart.cell i (k + 1)).isEmpty then none else some (i, i + k + 1)) = some s →
        s.1 = i ∧ s.2 - s.1 = k + 1 := by
    intro k i s found
    split at found
    · cases found
    · cases found
      simp only [true_and]
      omega
  rw [derivable, List.pairwise_flatMap]
  constructor
  · intro k _
    rw [List.pairwise_filterMap]
    apply List.pairwise_lt_range.imp
    intro i i' left s hs t ht
    have := span hs
    have := span ht
    exact .inr ⟨by omega, by omega⟩
  · apply List.pairwise_lt_range.imp
    intro k k' shorter s hs t ht
    obtain ⟨_, _, hs⟩ := List.mem_filterMap.mp hs
    obtain ⟨_, _, ht⟩ := List.mem_filterMap.mp ht
    have := span hs
    have := span ht
    exact .inl (by omega)

theorem events_eq (chart : Chart) (index : Index) {length : Nat} (nonempty : length ≠ 0) :
    chart.events index length =
      (List.range length).map (fun i => .seeded i (index.namesOf (chart.cell i (i - i)).toList)) ++
      (chart.derivable length).map (fun s =>
        .filled s.1 s.2 (index.namesOf (chart.cell s.1 (s.2 - s.1)).toList)) ++
      [.finished length (chart.accepts index length)] := by
  rw [events, if_neg nonempty, derivable, List.map_flatMap]
  simp only [List.map_filterMap, Nat.sub_self]
  congr 4
  funext k
  congr 1
  funext i
  have extra : i + k + 1 - i = k + 1 := by omega
  split <;> simp [*]

end Chart

namespace Index

/-- The names are those of all numbers that derive the word, in the order of the numbers. -/
def Named (index : Index) (word names : List String) : Prop :=
  ∃ ids : List Nat, ids.Pairwise (· < ·) ∧ (∀ id, id ∈ ids ↔ index.Derives id word) ∧
    names.map some = ids.map index.nameOf?

theorem map_some_namesOf {index : Index} {ids : List Nat} (known : ∀ id ∈ ids, id < index.nonterminalCount) :
    (index.namesOf ids).map some = ids.map index.nameOf? := by
  rw [namesOf, List.map_filterMap_some_eq_filter_map_isSome, List.filter_eq_self]
  intro name member
  obtain ⟨id, inside, rfl⟩ := List.mem_map.mp member
  simpa [nameOf?, nonterminalCount] using known id inside

theorem named_cell {index : Index} {word : List String} {cell : IdSet}
    (holds : ∀ id, id ∈ cell ↔ index.Derives id word)
    (known : ∀ id, index.Derives id word → id < index.nonterminalCount) :
    index.Named word (index.namesOf cell.toList) := by
  have mem : ∀ id, id ∈ cell.toList ↔ index.Derives id word :=
    fun id => Std.TreeSet.mem_toList.trans (holds id)
  exact ⟨cell.toList, Std.TreeSet.ordered_toList.imp Nat.compare_eq_lt.mp, mem,
    map_some_namesOf fun id inside => known id ((mem id).mp inside)⟩

end Index

end WordWalk
