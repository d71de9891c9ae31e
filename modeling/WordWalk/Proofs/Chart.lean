import WordWalk.Chart
import WordWalk.Proofs.Tables

/-! # What a chart holds

Every cell holds exactly the numbers that derive its span by the tables. Rows are computed
in the order of their length, so a new row only looks at cells that are final. A word is
accepted when the start symbol derives all of it.
-/

namespace WordWalk

/-- The labels of a span of `extra + 1` labels. -/
def span (word : List String) (first extra : Nat) : List String := (word.drop first).take (extra + 1)

theorem span_length {word : List String} {first extra : Nat} (inside : first + extra < word.length) :
    (span word first extra).length = extra + 1 := by
  simp only [span, List.length_take, List.length_drop]
  omega

theorem span_single {word : List String} {first : Nat} (inside : first < word.length) :
    span word first 0 = [word[first]] := by
  rw [span, List.drop_eq_getElem_cons inside]
  rfl

theorem span_all {word : List String} (nonempty : word ≠ []) :
    span word 0 (word.length - 1) = word := by
  have : 0 < word.length := List.length_pos_iff.mpr nonempty
  rw [span, List.drop_zero, List.take_of_length_le (by omega)]

theorem span_append (word : List String) (first : Nat) {k extra : Nat} (inside : k < extra) :
    span word first k ++ span word (first + k + 1) (extra - k - 1) = span word first extra := by
  simp only [span, Nat.add_assoc]
  rw [← List.drop_drop, ← List.take_add]
  congr 1
  omega

/-- Every way to cut a span in two parts that are not empty has a split point. -/
theorem span_split {word u v : List String} {first extra : Nat} (inside : first + extra < word.length)
    (parts : span word first extra = u ++ v) (hu : u ≠ []) (hv : v ≠ []) :
    ∃ k < extra, u = span word first k ∧ v = span word (first + k + 1) (extra - k - 1) := by
  have lengths := congrArg List.length parts
  rw [span_length inside, List.length_append] at lengths
  have : 0 < u.length := List.length_pos_iff.mpr hu
  have : 0 < v.length := List.length_pos_iff.mpr hv
  have before : u.length - 1 < extra := by omega
  refine ⟨u.length - 1, before, ?_⟩
  rw [← span_append word first before] at parts
  have same : (span word first (u.length - 1)).length = u.length := by
    rw [span_length (by omega)]
    omega
  obtain ⟨left, right⟩ := List.append_inj parts same
  exact ⟨left.symm, right.symm⟩

theorem mem_foldl_union {β : Type} {f : β → IdSet} {xs : List β} {set : IdSet} {id : Nat} :
    id ∈ xs.foldl (fun set x => set ∪ f x) set ↔ id ∈ set ∨ ∃ x ∈ xs, id ∈ f x := by
  induction xs generalizing set with
  | nil => simp
  | cons x rest ih =>
      simp only [List.foldl_cons, ih, Std.TreeSet.mem_union_iff, List.exists_mem_cons_iff, or_assoc]

namespace Chart

theorem mem_combine {index : Index} {left right : IdSet} {id : Nat} :
    id ∈ combine index left right ↔
      ∃ l ∈ left, ∃ r ∈ right, id ∈ (index.producersOfPair? l r).getD ∅ := by
  have rows : ∀ (lefts : List Nat) (set : IdSet),
      id ∈ lefts.foldl (fun set l =>
        right.toList.foldl (fun set r => set ∪ (index.producersOfPair? l r).getD ∅) set) set ↔
      id ∈ set ∨ ∃ l ∈ lefts, ∃ r ∈ right.toList, id ∈ (index.producersOfPair? l r).getD ∅ := by
    intro lefts
    induction lefts with
    | nil => simp
    | cons l rest ih =>
        intro set
        rw [List.foldl_cons, ih, mem_foldl_union, List.exists_mem_cons_iff, or_assoc]
  simp only [combine, Std.TreeSet.foldl_eq_foldl_toList, rows, Std.TreeSet.mem_toList]
  simp

theorem mem_derive {index : Index} {chart : Chart} {first extra id : Nat} :
    id ∈ derive index chart first extra ↔
      ∃ k < extra, ∃ l ∈ chart.cell first k, ∃ r ∈ chart.cell (first + k + 1) (extra - k - 1),
        id ∈ (index.producersOfPair? l r).getD ∅ := by
  simp only [derive, mem_foldl_union, mem_combine, List.mem_range]
  simp

theorem cell_addRow_old {index : Index} {chart : Chart} {length first extra : Nat}
    (old : extra < chart.rows.size) :
    (addRow index length chart).cell first extra = chart.cell first extra := by
  simp only [cell, addRow, Array.getElem?_push_lt old, Array.getElem?_eq_getElem old]

theorem cell_addRow_new {index : Index} {chart : Chart} {length first : Nat}
    (inside : first + chart.rows.size < length) :
    (addRow index length chart).cell first chart.rows.size =
      derive index chart first chart.rows.size := by
  have bound : first < length - chart.rows.size := by omega
  simp [cell, addRow, bound]

theorem size_addRows (index : Index) (length n : Nat) (chart : Chart) :
    (addRows index length n chart).rows.size = chart.rows.size + n := by
  induction n generalizing chart with
  | zero => rfl
  | succ n ih =>
      rw [addRows, ih]
      simp only [addRow, Array.size_push]
      omega

end Chart

namespace Index

theorem derives_single {index : Index} {id : Nat} {label : String} :
    index.Derives id [label] ↔ id ∈ (index.producersOfLabel? label).getD ∅ := by
  constructor
  · generalize same : [label] = word
    intro h
    cases h with
    | label entry =>
        obtain rfl := List.head_eq_of_cons_eq same
        exact entry
    | pair _ front back =>
        -- neither part of a pair is empty, so one label does not have two of them
        have lengths := congrArg List.length same
        have := List.length_pos_iff.mpr front.ne_nil
        have := List.length_pos_iff.mpr back.ne_nil
        simp only [List.length_singleton, List.length_append] at lengths
        omega
  · exact .label

/-- A longer span is derived by a pair from some split of it and in no other way. -/
theorem derives_span {index : Index} {word : List String} {first extra id : Nat} (longer : 0 < extra)
    (inside : first + extra < word.length) :
    index.Derives id (span word first extra) ↔
      ∃ k < extra, ∃ l, index.Derives l (span word first k) ∧
        ∃ r, index.Derives r (span word (first + k + 1) (extra - k - 1)) ∧
          id ∈ (index.producersOfPair? l r).getD ∅ := by
  constructor
  · generalize parts : span word first extra = whole
    intro h
    cases h with
    | label =>
        have lengths := congrArg List.length parts
        rw [span_length inside, List.length_singleton] at lengths
        omega
    | pair entry front back =>
        obtain ⟨k, before, rfl, rfl⟩ := span_split inside parts front.ne_nil back.ne_nil
        exact ⟨k, before, _, front, _, back, entry⟩
  · rintro ⟨k, before, l, front, r, back, entry⟩
    rw [← span_append word first before]
    exact .pair entry front back

end Index

namespace Chart

/-- The cells computed so far hold the numbers that derive their spans. -/
def Exact (index : Index) (word : List String) (chart : Chart) : Prop :=
  ∀ ⦃first extra id : Nat⦄, extra < chart.rows.size → first + extra < word.length →
    (id ∈ chart.cell first extra ↔ index.Derives id (span word first extra))

theorem exact_firstRow (index : Index) (word : List String) :
    Exact index word ⟨#[firstRow index word]⟩ := by
  intro first extra id computed inside
  obtain rfl : extra = 0 := Nat.lt_one_iff.mp computed
  have known : first < word.length := inside
  rw [span_single known, Index.derives_single]
  simp [cell, firstRow, known]

theorem Exact.addRow {index : Index} {word : List String} {chart : Chart} (h : Exact index word chart)
    (started : 0 < chart.rows.size) : Exact index word (Chart.addRow index word.length chart) := by
  intro first extra id computed inside
  have size : (Chart.addRow index word.length chart).rows.size = chart.rows.size + 1 :=
    Array.size_push ..
  by_cases old : extra < chart.rows.size
  · rw [cell_addRow_old old]
    exact h old inside
  · obtain rfl : extra = chart.rows.size := by omega
    rw [cell_addRow_new inside, mem_derive, Index.derives_span started inside]
    have cells : ∀ {k l r}, k < chart.rows.size →
        (l ∈ chart.cell first k ↔ index.Derives l (span word first k)) ∧
        (r ∈ chart.cell (first + k + 1) (chart.rows.size - k - 1) ↔
          index.Derives r (span word (first + k + 1) (chart.rows.size - k - 1))) :=
      fun before => ⟨h before (by omega), h (by omega) (by omega)⟩
    constructor
    · rintro ⟨k, before, l, hl, r, hr, entry⟩
      exact ⟨k, before, l, ((cells (r := r) before).1).mp hl, r, ((cells (l := l) before).2).mp hr, entry⟩
    · rintro ⟨k, before, l, hl, r, hr, entry⟩
      exact ⟨k, before, l, ((cells (r := r) before).1).mpr hl, r, ((cells (l := l) before).2).mpr hr, entry⟩

theorem Exact.addRows {index : Index} {word : List String} {chart : Chart} (h : Exact index word chart)
    (started : 0 < chart.rows.size) (n : Nat) :
    Exact index word (Chart.addRows index word.length n chart) := by
  induction n generalizing chart with
  | zero => exact h
  | succ n ih => exact ih (h.addRow started) (by simp [Chart.addRow])

theorem mem_cell_ofWord {index : Index} {word : List String} {first extra id : Nat}
    (inside : first + extra < word.length) :
    id ∈ (ofWord index word).cell first extra ↔ index.Derives id (span word first extra) := by
  have started : 0 < (⟨#[firstRow index word]⟩ : Chart).rows.size := Nat.one_pos
  refine (exact_firstRow index word).addRows started (word.length - 1) ?_ inside
  rw [size_addRows]
  have : (#[firstRow index word] : Array (Array IdSet)).size = 1 := rfl
  omega

end Chart

/-- A word is accepted when it is derived from the start symbol. The empty word never is. -/
theorem Index.accepts_iff_derives {index : Index} {word : List String} :
    index.accepts word = true ↔ index.Derives index.start word := by
  simp only [accepts, Chart.accepts, Bool.and_eq_true, bne_iff_ne, ne_eq, List.length_eq_zero_iff,
    ← Std.TreeSet.mem_iff_contains]
  constructor
  · rintro ⟨nonempty, member⟩
    have := List.length_pos_iff.mpr nonempty
    rw [Chart.mem_cell_ofWord (by omega), span_all nonempty] at member
    exact member
  · intro h
    have := List.length_pos_iff.mpr h.ne_nil
    refine ⟨h.ne_nil, ?_⟩
    rwa [Chart.mem_cell_ofWord (by omega), span_all h.ne_nil]

end WordWalk
