import Mathlib.Tactic.Ring
import WordWalk.FlatChart
import WordWalk.Proofs.Cells

/-! # Cells in one array are settled one after the other

The loops that fill the array of a chart go through its spans in one order, shorter ones first. An
invariant says which cells are settled, that only those have been accessed, and that they hold the numbers
that derive their spans. A step settles one more cell, and it reads the cells of shorter spans alone.
-/

namespace WordWalk

namespace FlatChart

/-! ## The order of the cells -/

/-- The spans of a word, shorter ones first, each as its first and its last label. -/
def order (total : Nat) : List (Nat × Nat) :=
  (List.range total).flatMap fun extra => (List.range (total - extra)).map fun i => (i, i + extra)

theorem mem_order {total i j : Nat} : (i, j) ∈ order total ↔ i ≤ j ∧ j < total := by
  simp only [order, List.mem_flatMap, List.mem_map, List.mem_range, Prod.mk.injEq]
  constructor
  · intro ⟨extra, _, first, bound, same, sum⟩
    omega
  · intro ⟨ordered, inside⟩
    exact ⟨j - i, by omega, i, by omega, rfl, by omega⟩

theorem pairwise_order (total : Nat) : (order total).Pairwise Chart.Before := by
  rw [order, List.pairwise_flatMap]
  constructor
  · intro extra _
    rw [List.pairwise_map]
    apply List.pairwise_lt_range.imp
    intro i j left
    exact .inr ⟨by simp, left⟩
  · apply List.pairwise_lt_range.imp
    intro extra more shorter s hs t ht
    obtain ⟨i, _, rfl⟩ := List.mem_map.mp hs
    obtain ⟨j, _, rfl⟩ := List.mem_map.mp ht
    exact .inl (by simp [shorter])

theorem nodup_order (total : Nat) : (order total).Nodup := by
  apply (pairwise_order total).imp
  intro s t before same
  subst same
  cases before with
  | inl shorter => exact Nat.lt_irrefl _ shorter
  | inr left => exact Nat.lt_irrefl _ left.2

/-- Half of all pairs of labels are spans, and the spans of a single label. -/
theorem length_order (total : Nat) : 2 * (order total).length = total * (total + 1) := by
  have rows : ∀ n ≤ total, 2 * ((List.range n).flatMap fun extra =>
      (List.range (total - extra)).map fun i => (i, i + extra)).length + (total - n) * (total - n + 1) =
        total * (total + 1) := by
    intro n
    induction n with
    | zero => simp
    | succ n ih =>
        intro inside
        obtain ⟨d, rest⟩ := Nat.exists_eq_add_of_lt inside
        have before := ih (by omega)
        have now : total - n = d + 1 := by omega
        have next : total - (n + 1) = d := by omega
        simp only [List.range_succ, List.flatMap_append, List.length_append, List.flatMap_singleton,
          List.length_map, List.length_range, List.length_singleton, now, next] at before ⊢
        rw [← before]
        ring
  have all := rows total (Nat.le_refl _)
  rwa [Nat.sub_self, Nat.zero_mul, Nat.add_zero] at all

/-- The part of the loops that is about the cell of one span. -/
def settle (index : Index) (traced : Bool) (word : List String) (s : Nat × Nat) : Filling Unit :=
  if s.1 = s.2 then seed index traced (word.getD s.1 "") s.1
  else fillSpan index traced word.length (s.2 - s.1 + 1) s.1

theorem forM_flatMap {α β : Type} {f : α → List β} {g : β → Filling Unit} (xs : List α) :
    (xs.flatMap f).forM g = xs.forM fun x => (f x).forM g := by
  induction xs with
  | nil => rfl
  | cons x rest ih =>
      rw [List.flatMap_cons, List.forM_eq_forM, List.forM_append]
      exact congrArg _ (funext fun _ => ih)

theorem forM_congr {α : Type} {f g : α → Filling Unit} {xs : List α} (same : ∀ x ∈ xs, f x = g x) :
    xs.forM f = xs.forM g := by
  induction xs with
  | nil => rfl
  | cons x rest ih =>
      show (do f x; rest.forM f) = (do g x; rest.forM g)
      rw [same x (by simp), ih fun y inside => same y (by simp [inside])]

theorem number_eq {total a b : Nat} (known : b ≤ a) (inside : a - b < total) :
    number total a b = pure (a - b) := if_pos ⟨known, inside⟩

theorem fillSpans_eq {index : Index} {traced : Bool} {word : List String} {extra : Nat} (longer : 0 < extra)
    (inside : extra < word.length) : fillSpans index traced word.length (extra + 1) =
      ((List.range (word.length - extra)).map fun i => (i, i + extra)).forM (settle index traced word) := by
  have last : word.length - (extra + 1) + 1 = word.length - extra := by omega
  rw [fillSpans, number_eq (by omega) (by omega), pure_bind, last, List.forM_eq_forM, List.forM_eq_forM,
    List.forM_map]
  congr 1
  funext i
  have longer : ¬ i = i + extra := by omega
  have length : i + extra - i + 1 = extra + 1 := by omega
  rw [settle, if_neg longer, length]

/-- The loops go through the cells in the order of their spans. -/
theorem fill_eq (index : Index) (traced : Bool) (word : List String) :
    fill index traced word = (order word.length).forM (settle index traced word) := by
  have singles : word.zipIdx.forM (fun place => seed index traced place.1 place.2) =
      ((List.range word.length).map fun i => (i, i + 0)).forM (settle index traced word) := by
    have labels : word.zipIdx = (List.range word.length).map fun i => (word.getD i "", i) := by
      apply List.ext_getElem
      · simp
      · intro i before _
        simp at before
        simp [before]
    rw [labels, List.forM_eq_forM, List.forM_eq_forM, List.forM_map, List.forM_map]
    simp [settle]
  rw [fill, singles, order, forM_flatMap]
  cases lengths : word.length with
  | zero => rfl
  | succ n =>
      conv_rhs => rw [List.range_succ_eq_map, List.forM_eq_forM, List.forM_cons]
      rw [Nat.add_sub_cancel, List.range'_eq_map_range]
      congr 1
      funext _
      rw [List.forM_eq_forM, List.forM_map, List.forM_map]
      apply forM_congr
      intro extra before
      have length : 2 + extra = extra + 1 + 1 := by omega
      rw [length, ← lengths]
      have inside := List.mem_range.mp before
      exact fillSpans_eq (by omega) (by omega)

/-! ## Slots -/

theorem slot_lt {side i j : Nat} (first : i < side) (last : j < side) : slot side i j < side * side := by
  have row : (i + 1) * side ≤ side * side := Nat.mul_le_mul_right side first
  rw [Nat.add_one_mul] at row
  rw [slot]
  omega

theorem slot_inj {side i j k l : Nat} (hj : j < side) (hl : l < side) (same : slot side i j = slot side k l) :
    i = k ∧ j = l := by
  have last := congrArg (· % side) same
  simp only [slot, Nat.mul_add_mod_of_lt hj, Nat.mul_add_mod_of_lt hl] at last
  subst last
  exact ⟨Nat.eq_of_mul_eq_mul_right (by omega) (Nat.add_right_cancel same), rfl⟩

/-! ## Work that does not halt -/

theorem bind_of_some {α β : Type} {x : Filling α} {f : α → Filling β} {chart between : FlatChart} {a : α}
    (h : x chart = some (a, between)) : (x >>= f) chart = f a between := by
  show (x chart).bind (fun r => f r.1 r.2) = f a between
  rw [h, Option.bind_some]

/-- From every chart of a kind the work comes to an end, with a result and a chart as given. -/
def Gives {α : Type} (P : FlatChart → Prop) (x : Filling α) (Q : α → FlatChart → Prop) : Prop :=
  ∀ chart, P chart → ∃ a after, x chart = some (a, after) ∧ Q a after

namespace Gives

variable {α β : Type} {P : FlatChart → Prop}

theorem pure {a : α} {Q : α → FlatChart → Prop} (h : ∀ chart, P chart → Q a chart) :
    Gives P (Pure.pure a) Q :=
  fun chart hp => ⟨a, chart, rfl, h chart hp⟩

theorem bind {x : Filling α} {f : α → Filling β} {Q : α → FlatChart → Prop}
    {R : β → FlatChart → Prop} (first : Gives P x Q) (rest : ∀ a, Gives (Q a) (f a) R) : Gives P (x >>= f) R := by
  intro chart hp
  obtain ⟨a, between, hx, hq⟩ := first chart hp
  obtain ⟨b, after, hf, hr⟩ := rest a between hq
  exact ⟨b, after, (bind_of_some hx).trans hf, hr⟩

theorem imp {x : Filling α} {Q R : α → FlatChart → Prop} (h : Gives P x Q)
    (weaker : ∀ a chart, Q a chart → R a chart) : Gives P x R := by
  intro chart hp
  obtain ⟨a, after, hx, hq⟩ := h chart hp
  exact ⟨a, after, hx, weaker a after hq⟩

theorem given {p : Prop} {x : Filling α} {Q : α → FlatChart → Prop} (h : p → Gives P x Q) :
    Gives (fun chart => p ∧ P chart) x Q :=
  fun chart hp => h hp.1 chart hp.2

theorem collect {f : IdSet → β → Filling IdSet} {new : β → Nat → Prop} {xs : List β}
    (step : ∀ x ∈ xs, ∀ set, Gives P (f set x) fun more chart =>
      (∀ id, id ∈ more ↔ id ∈ set ∨ new x id) ∧ P chart) (set : IdSet) :
    Gives P (xs.foldlM f set) fun all chart =>
      (∀ id, id ∈ all ↔ id ∈ set ∨ ∃ x ∈ xs, new x id) ∧ P chart := by
  induction xs generalizing set with
  | nil => exact pure fun chart hp => ⟨fun id => by simp, hp⟩
  | cons x rest ih =>
      rw [List.foldlM_cons]
      have later := fun y inside => step y (List.mem_cons_of_mem x inside)
      apply (step x (List.mem_cons_self ..) set).bind
      intro more
      apply given
      intro added
      apply (ih later more).imp
      intro all chart h
      refine ⟨fun id => ?_, h.2⟩
      rw [h.1, added, List.exists_mem_cons_iff, or_assoc]

end Gives

/-! ## Settled cells -/

/-- Whether the cell of a span is ever written. That of a label without producers stays as it is. -/
def assigned (index : Index) (word : List String) (s : Nat × Nat) : Bool :=
  s.1 != s.2 || (index.producersOfLabel? (word.getD s.1 "")).isSome

/-- The contents of a cell are the numbers that derive its span. -/
def Holds (index : Index) (word : List String) (i j : Nat) (contents : IdSet) : Prop :=
  ∀ id, id ∈ contents ↔ index.Derives id (span word i (j - i))

/-- What is told of a span, given the full chart. A span without a derivation is passed over in silence,
    unless it is a single label. -/
def event? (index : Index) (word : List String) (s : Nat × Nat) : Option ChartEvent :=
  let cell := (Chart.ofWord index word).cell s.1 (s.2 - s.1)
  let names := index.namesOf cell.toList
  if s.1 = s.2 then some (.seeded s.1 names)
  else if cell.isEmpty then none
  else some (.filled s.1 s.2 names)

def told (index : Index) (traced : Bool) (word : List String) (s : Nat × Nat) : List ChartEvent :=
  if traced then (event? index word s).toList else []

theorem Holds.event? {index : Index} {word : List String} {i j : Nat} {contents : IdSet}
    (h : Holds index word i j contents) (ordered : i ≤ j) (inside : j < word.length) :
    FlatChart.event? index word (i, j) =
      if i = j then some (.seeded i (index.namesOf contents.toList))
      else if contents.isEmpty then none
      else some (.filled i j (index.namesOf contents.toList)) := by
  have same : contents.Equiv ((Chart.ofWord index word).cell i (j - i)) :=
    .of_forall_mem_iff fun id => (h id).trans (Chart.mem_cell_ofWord (by omega)).symm
  rw [same.toList_eq, same.isEmpty_eq]
  rfl

/-- The cells of the spans in `done` have their final contents, and no other cell has been accessed.
    The spans in `earlier` are those that were done when the chart looked like `before`. -/
structure Settled (index : Index) (word : List String) (before : FlatChart)
    (earlier done : List (Nat × Nat)) (events : List ChartEvent) (chart : FlatChart) : Prop where
  side : chart.side = word.length
  size : chart.slots.size = word.length * word.length
  told : chart.events = events
  upper : ∀ s ∈ done, s.1 ≤ s.2 ∧ s.2 < word.length
  untouched : ∀ i j, i < word.length → j < word.length → (i, j) ∉ done → chart.contents? i j = some ∅
  exact : ∀ s ∈ done, ∃ contents, chart.contents? s.1 s.2 = some contents ∧
    Holds index word s.1 s.2 contents
  accesses : ∀ a ∈ chart.accesses, a.bounds ∈ done ∧
    chart.contents? a.bounds.1 a.bounds.2 = some a.contents
  final : chart.accesses.Pairwise fun a b => b.written? ≠ some a.bounds
  written : chart.accesses.filterMap Access.written? = done.filter (assigned index word)
  known : ∀ s ∈ earlier, s ∈ done
  kept : ∀ s ∈ earlier, chart.contents? s.1 s.2 = before.contents? s.1 s.2

section Steps

variable {index : Index} {word : List String} {before : FlatChart} {earlier done : List (Nat × Nat)}
  {events : List ChartEvent}

theorem settled_blank (index : Index) (word : List String) (before : FlatChart) :
    Settled index word before [] [] [] (blank word.length) := by
  refine ⟨rfl, Array.size_replicate, rfl, by simp, fun i j hi hj _ => ?_, by simp, ?_, .nil, rfl, by simp, by simp⟩
  · exact (Array.getElem?_replicate ..).trans (if_pos (slot_lt hi hj))
  · intro a access
    cases access

theorem Settled.rebase {chart : FlatChart} (h : Settled index word before earlier done events chart) :
    Settled index word chart done done events chart :=
  { h with known := fun _ inside => inside, kept := fun _ _ => rfl }

theorem cell_gives {i j : Nat} (inside : (i, j) ∈ done) :
    Gives (Settled index word before earlier done events) (cell i j) fun contents chart =>
      Holds index word i j contents ∧ Settled index word before earlier done events chart := by
  intro chart h
  obtain ⟨contents, found, holds⟩ := h.exact _ inside
  refine ⟨contents, { chart with accesses := chart.accesses ++ [.read i j contents] }, ?_, holds, ?_⟩
  · show (chart.contents? i j).bind _ = _
    rw [found]
    rfl
  · have accesses : ∀ a ∈ chart.accesses ++ [Access.read i j contents],
        a.bounds ∈ done ∧ chart.contents? a.bounds.1 a.bounds.2 = some a.contents :=
      List.forall_mem_append.mpr ⟨h.accesses, List.forall_mem_singleton.mpr ⟨inside, found⟩⟩
    have final : (chart.accesses ++ [Access.read i j contents]).Pairwise
        fun a b => b.written? ≠ some a.bounds := by
      rw [List.pairwise_append]
      refine ⟨h.final, List.pairwise_singleton .., fun a _ b new => ?_⟩
      obtain rfl := List.mem_singleton.mp new
      simp [Access.written?]
    have written : (chart.accesses ++ [Access.read i j contents]).filterMap Access.written? =
        done.filter (assigned index word) := by
      rw [List.filterMap_append, h.written]
      exact List.append_nil _
    exact { h with accesses, final, written }

/-- The chart once the cell of a span has been written. -/
def wrote (chart : FlatChart) (i j : Nat) (contents : IdSet) : FlatChart :=
  { chart with
    slots := chart.slots.setIfInBounds (slot chart.side i j) contents
    accesses := chart.accesses ++ [.write i j contents] }

theorem contents?_wrote {chart : FlatChart} {i j k l : Nat} (size : chart.slots.size = chart.side * chart.side)
    (hi : i < chart.side) (hj : j < chart.side) (hl : l < chart.side) (contents : IdSet) :
    (chart.wrote i j contents).contents? k l = if (k, l) = (i, j) then some contents else chart.contents? k l := by
  split
  · next same =>
    cases same
    exact Array.getElem?_setIfInBounds_self_of_lt (size.symm ▸ slot_lt hi hj)
  · next other =>
    apply Array.getElem?_setIfInBounds_ne
    intro same
    obtain ⟨rfl, rfl⟩ := slot_inj hj hl same
    exact other rfl

theorem change_settles {i j : Nat} {f : IdSet → IdSet} (ordered : i ≤ j) (inside : j < word.length)
    (new : (i, j) ∉ done) (writes : assigned index word (i, j) = true) (holds : Holds index word i j (f ∅)) :
    Gives (Settled index word before earlier done events) (change i j f) fun _ chart =>
      Settled index word before earlier (done ++ [(i, j)]) events chart := by
  intro chart h
  have within : i < word.length := by omega
  have found : chart.contents? i j = some ∅ := h.untouched i j within inside new
  have cells : ∀ k l, l < word.length → (chart.wrote i j (f ∅)).contents? k l =
      if (k, l) = (i, j) then some (f ∅) else chart.contents? k l := by
    rw [← h.side] at within inside ⊢
    exact fun k l hl => contents?_wrote (by rw [h.size, h.side]) within inside hl _
  have itself : (chart.wrote i j (f ∅)).contents? i j = some (f ∅) := (cells i j inside).trans (if_pos rfl)
  have old : ∀ s ∈ done, (chart.wrote i j (f ∅)).contents? s.1 s.2 = chart.contents? s.1 s.2 := by
    intro s settled
    rw [cells s.1 s.2 (h.upper s settled).2, if_neg]
    intro same
    exact new (same ▸ settled)
  have run : change i j f chart = some ((), chart.wrote i j (f ∅)) := by
    show (chart.contents? i j).bind _ = _
    rw [found]
    rfl
  refine ⟨(), chart.wrote i j (f ∅), run, {
    side := h.side
    told := h.told
    size := (Array.size_setIfInBounds ..).trans h.size
    upper := List.forall_mem_append.mpr ⟨h.upper, List.forall_mem_singleton.mpr ⟨ordered, inside⟩⟩
    untouched := ?untouched
    exact := List.forall_mem_append.mpr ⟨?exact, List.forall_mem_singleton.mpr ⟨f ∅, itself, holds⟩⟩
    accesses := List.forall_mem_append.mpr ⟨?accesses, List.forall_mem_singleton.mpr ⟨?now, itself⟩⟩
    final := ?final
    written := ?written
    known := fun s settled => List.mem_append_left _ (h.known s settled)
    kept := fun s settled => (old s (h.known s settled)).trans (h.kept s settled) }⟩
  case untouched =>
    intro k l hk hl unsettled
    rw [List.mem_append, List.mem_singleton, not_or] at unsettled
    rw [cells k l hl, if_neg unsettled.2]
    exact h.untouched k l hk hl unsettled.1
  case exact =>
    intro s settled
    rw [old s settled]
    exact h.exact s settled
  case accesses =>
    intro a access
    obtain ⟨settled, final⟩ := h.accesses a access
    exact ⟨List.mem_append_left _ settled, (old _ settled).trans final⟩
  case now => exact List.mem_append_right _ (List.mem_singleton_self _)
  case final =>
    rw [wrote, List.pairwise_append]
    refine ⟨h.final, List.pairwise_singleton .., fun a access b now same => ?_⟩
    obtain rfl := List.mem_singleton.mp now
    have settled := (h.accesses a access).1
    rw [← Option.some.inj same] at settled
    exact new settled
  case written =>
    rw [wrote, List.filterMap_append, h.written, List.filter_append, List.filter_singleton, writes]
    rfl

/-- A cell that is never written has its final contents from the beginning. -/
theorem Settled.unassigned {i : Nat} {chart : FlatChart} (h : Settled index word before earlier done events chart)
    (inside : i < word.length) (new : (i, i) ∉ done) (none : index.producersOfLabel? word[i] = none) :
    Settled index word before earlier (done ++ [(i, i)]) events chart := by
  have unwritten : assigned index word (i, i) = false := by simp [assigned, inside, none]
  have holds : Holds index word i i ∅ := by
    intro id
    rw [Nat.sub_self, span_single inside, Index.derives_single, none]
    rfl
  refine { h with
    upper := List.forall_mem_append.mpr ⟨h.upper, List.forall_mem_singleton.mpr ⟨Nat.le_refl i, inside⟩⟩
    untouched := ?untouched
    exact := List.forall_mem_append.mpr ⟨h.exact,
      List.forall_mem_singleton.mpr ⟨∅, h.untouched i i inside inside new, holds⟩⟩
    accesses := ?accesses
    written := ?written
    known := fun s settled => List.mem_append_left _ (h.known s settled) }
  case untouched =>
    intro k l hk hl unsettled
    exact h.untouched k l hk hl fun settled => unsettled (List.mem_append_left _ settled)
  case accesses => exact fun a access => ⟨List.mem_append_left _ (h.accesses a access).1, (h.accesses a access).2⟩
  case written =>
    rw [h.written, List.filter_append, List.filter_singleton, unwritten]
    exact (List.append_nil _).symm

theorem tell_gives (heard : Bool) (event : ChartEvent) :
    Gives (Settled index word before earlier done events) (tell heard event) fun _ chart =>
      Settled index word before earlier done (events ++ if heard then [event] else []) chart := by
  intro chart h
  exact ⟨(), _, rfl, { h with told := by rw [h.told] }⟩

theorem seed_settles {i : Nat} (traced : Bool) (inside : i < word.length) (new : (i, i) ∉ done) :
    Gives (Settled index word before earlier done events) (seed index traced word[i] i) fun _ chart =>
      Settled index word before earlier (done ++ [(i, i)]) (events ++ told index traced word (i, i)) chart := by
  have look : Gives (Settled index word before earlier (done ++ [(i, i)]) events)
      (if traced then do tell true (.seeded i (index.namesOf (← cell i i).toList)) else Pure.pure ()) fun _ chart =>
        Settled index word before earlier (done ++ [(i, i)]) (events ++ told index traced word (i, i)) chart := by
    cases traced with
    | false => exact .pure fun _ h => by rwa [told, if_neg Bool.false_ne_true, List.append_nil]
    | true =>
        apply (cell_gives (List.mem_append_right _ (List.mem_singleton_self _))).bind
        intro contents
        apply Gives.given
        intro holds
        rw [told, if_pos rfl, holds.event? (Nat.le_refl i) inside, if_pos rfl]
        exact tell_gives true _
  unfold seed
  cases entry : index.producersOfLabel? word[i] with
  | none =>
      have unwritten : Gives (Settled index word before earlier done events) (Pure.pure ()) fun _ chart =>
          Settled index word before earlier (done ++ [(i, i)]) events chart :=
        .pure fun _ h => h.unassigned inside new entry
      exact unwritten.bind fun _ => look
  | some producers =>
      have writes : assigned index word (i, i) = true := by simp [assigned, inside, entry]
      have holds : Holds index word i i (∅ ∪ producers) := by
        intro id
        rw [Nat.sub_self, span_single inside, Index.derives_single, entry]
        simp [Std.TreeSet.mem_union_iff]
      exact (change_settles (f := (· ∪ producers)) (Nat.le_refl i) inside new writes holds).bind fun _ => look

theorem join_gives {i j k : Nat} (left : (i, k) ∈ done) (right : (k + 1, j) ∈ done) (set : IdSet) :
    Gives (Settled index word before earlier done events) (join index i j set k) fun more chart =>
      (∀ id, id ∈ more ↔ id ∈ set ∨ ∃ l, index.Derives l (span word i (k - i)) ∧
        ∃ r, index.Derives r (span word (k + 1) (j - (k + 1))) ∧
          id ∈ (index.producersOfPair? l r).getD ∅) ∧
      Settled index word before earlier done events chart := by
  have row : ∀ l set, Gives (Settled index word before earlier done events)
      (do return (← cell (k + 1) j).foldl (fun set r => set ∪ (index.producersOfPair? l r).getD ∅) set)
      fun more chart =>
        (∀ id, id ∈ more ↔ id ∈ set ∨ ∃ r, index.Derives r (span word (k + 1) (j - (k + 1))) ∧
          id ∈ (index.producersOfPair? l r).getD ∅) ∧
        Settled index word before earlier done events chart := by
    intro l set
    apply (cell_gives right).bind
    intro rights
    apply Gives.given
    intro holds
    apply Gives.pure
    intro chart h
    refine ⟨fun id => ?_, h⟩
    rw [Std.TreeSet.foldl_eq_foldl_toList, mem_foldl_union]
    simp only [Std.TreeSet.mem_toList, holds _]
  apply (cell_gives left).bind
  intro lefts
  apply Gives.given
  intro holds
  apply (Gives.collect (fun l _ => row l) set).imp
  intro more chart h
  refine ⟨fun id => ?_, h.2⟩
  simp only [h.1, Std.TreeSet.mem_toList, holds _]

theorem fillSpan_settles {i j : Nat} (traced : Bool) (longer : i < j) (inside : j < word.length) (new : (i, j) ∉ done)
    (shorter : ∀ k, i ≤ k → k < j → (i, k) ∈ done ∧ (k + 1, j) ∈ done) :
    Gives (Settled index word before earlier done events) (fillSpan index traced word.length (j - i + 1) i)
      fun _ chart =>
        Settled index word before earlier (done ++ [(i, j)]) (events ++ told index traced word (i, j)) chart := by
  have last : i + (j - i + 1) - 1 = j := by omega
  have cuts : ∀ k ∈ List.range' i (j - i), i ≤ k ∧ k < j := by
    intro k cut
    rw [List.mem_range'_1] at cut
    omega
  rw [fillSpan, number_eq (by omega) (by omega), pure_bind, last]
  apply (Gives.collect (fun k cut => join_gives (shorter k (cuts k cut).1 (cuts k cut).2).1
    (shorter k (cuts k cut).1 (cuts k cut).2).2) ∅).bind
  intro derived
  apply Gives.given
  intro collected
  have writes : assigned index word (i, j) = true := by simp [assigned, longer.ne]
  have holds : Holds index word i j derived := by
    intro id
    rw [collected, Index.derives_span (by omega) (by omega)]
    constructor
    · rintro (none | ⟨k, cut, l, hl, r, hr, rule⟩)
      · cases Std.TreeSet.not_mem_emptyc none
      · have := cuts k cut
        have front : i + (k - i) + 1 = k + 1 := by omega
        have back : j - i - (k - i) - 1 = j - (k + 1) := by omega
        refine ⟨k - i, by omega, l, hl, r, ?_, rule⟩
        rwa [front, back]
    · intro ⟨k, cut, l, hl, r, hr, rule⟩
      refine .inr ⟨i + k, by rw [List.mem_range'_1]; omega, l, ?_, r, ?_, rule⟩
      · rwa [Nat.add_sub_cancel_left]
      · have back : j - (i + k + 1) = j - i - k - 1 := by omega
        rwa [back]
  have event : told index traced word (i, j) =
      if traced && !derived.isEmpty then [.filled i j (index.namesOf derived.toList)] else [] := by
    rw [told, holds.event? longer.le inside, if_neg longer.ne]
    cases traced <;> cases derived.isEmpty <;> rfl
  rw [event]
  exact (tell_gives _ _).bind fun _ =>
    change_settles (f := fun _ => derived) longer.le inside new writes holds

/-- The spans that a longer one is cut into come before it. -/
theorem settle_settles {s : Nat × Nat} {rest : List (Nat × Nat)} (traced : Bool)
    (place : done ++ s :: rest = order word.length) :
    Gives (Settled index word before earlier done events) (settle index traced word s) fun _ chart =>
      Settled index word before earlier (done ++ [s]) (events ++ told index traced word s) chart := by
  obtain ⟨i, j⟩ := s
  have here : (i, j) ∈ order word.length := by simp [← place]
  obtain ⟨ordered, inside⟩ := mem_order.mp here
  have parts := place ▸ pairwise_order word.length
  rw [List.pairwise_append, List.pairwise_cons] at parts
  have new : (i, j) ∉ done := by
    intro settled
    have nodup := place ▸ nodup_order word.length
    exact (List.nodup_append.mp nodup).2.2 _ settled _ (List.mem_cons_self ..) rfl
  have shorter : ∀ k l, k ≤ l → l < word.length → l - k < j - i → (k, l) ∈ done := by
    intro k l hk hl less
    have listed : (k, l) ∈ done ++ (i, j) :: rest := place ▸ mem_order.mpr ⟨hk, hl⟩
    rcases List.mem_append.mp listed with settled | later
    · exact settled
    · rcases List.mem_cons.mp later with same | later
      · cases same
        omega
      · cases parts.2.1.1 _ later with
        | inl more => exact absurd more (by simp; omega)
        | inr more => exact absurd more.1 (by simp; omega)
  unfold settle
  by_cases single : i = j
  · subst single
    rw [if_pos rfl, ← List.getElem_eq_getD]
    exact seed_settles traced inside new
  · rw [if_neg single]
    apply fillSpan_settles traced (by omega) inside new
    intro k front back
    exact ⟨shorter i k front (by omega) (by omega), shorter (k + 1) j (by omega) inside (by omega)⟩

theorem settled_forM {now later : List (Nat × Nat)} (traced : Bool)
    (place : done ++ now ++ later = order word.length) :
    Gives (Settled index word before earlier done events) (now.forM (settle index traced word)) fun _ chart =>
      Settled index word before earlier (done ++ now) (events ++ now.flatMap (told index traced word)) chart := by
  induction now generalizing done events with
  | nil => exact .pure fun chart h => by rwa [List.append_nil, List.flatMap_nil, List.append_nil]
  | cons s rest ih =>
      have first : done ++ s :: (rest ++ later) = order word.length := by simpa using place
      have second : done ++ [s] ++ rest ++ later = order word.length := by simpa using place
      apply (settle_settles traced first).bind
      intro _
      rw [List.flatMap_cons, ← List.append_assoc, List.append_cons done s rest]
      exact ih second

end Steps

/-- The end of the work from a chart on whose first cells are settled. -/
theorem finish_gives {index : Index} {word : List String} {before : FlatChart}
    {earlier done rest : List (Nat × Nat)} {events : List ChartEvent} (traced : Bool) (nonempty : word ≠ [])
    (place : done ++ rest = order word.length) :
    Gives (Settled index word before earlier done events)
      (do
        rest.forM (settle index traced word)
        let last ← number word.length word.length 1
        let accepted := (← cell 0 last).contains index.start
        tell traced (.finished word.length accepted)
        return accepted)
      fun verdict chart => verdict = index.accepts word ∧
        Settled index word before earlier (order word.length)
          (events ++ rest.flatMap (told index traced word) ++
            if traced then [.finished word.length (index.accepts word)] else []) chart := by
  have some : 0 < word.length := List.length_pos_iff.mpr nonempty
  have whole : (0, word.length - 1) ∈ order word.length := mem_order.mpr ⟨by omega, by omega⟩
  have all : done ++ rest ++ [] = order word.length := by rw [List.append_nil, place]
  apply (settled_forM traced all).bind
  intro _
  rw [number_eq (by omega) (by omega), pure_bind, place]
  apply (cell_gives whole).bind
  intro contents
  apply Gives.given
  intro holds
  have verdict : contents.contains index.start = index.accepts word := by
    rw [Bool.eq_iff_iff, Index.accepts_iff_derives, ← Std.TreeSet.mem_iff_contains, holds, Nat.sub_zero,
      span_all nonempty]
  rw [verdict]
  apply (tell_gives traced _).bind
  intro _
  exact .pure fun chart h => ⟨rfl, h⟩

/-- The cells of the array that belong to no span. -/
def unused (total : Nat) : List (Nat × Nat) := (order (total - 1)).map fun s => (s.2 + 1, s.1)

theorem mem_unused {total i j : Nat} : (i, j) ∈ unused total ↔ j < i ∧ i < total := by
  simp only [unused, List.mem_map, Prod.mk.injEq, Prod.exists, mem_order]
  constructor
  · intro ⟨first, last, _, row, column⟩
    omega
  · intro ⟨below, inside⟩
    exact ⟨j, i - 1, by omega, by omega, rfl⟩

/-- What is true of a chart, and of the work that has been done on it, when a word has been recognized. -/
structure Orderly (index : Index) (traced : Bool) (word : List String) (chart : FlatChart) : Prop where
  /-- Every access was to the cell of a span, inside of the array. -/
  inside : ∀ a ∈ chart.accesses, a.bounds.1 ≤ a.bounds.2 ∧ a.bounds.2 < word.length ∧
    slot word.length a.bounds.1 a.bounds.2 < chart.slots.size
  /-- It found or left what is in the cell at the end. -/
  final : ∀ a ∈ chart.accesses, chart.contents? a.bounds.1 a.bounds.2 = some a.contents
  /-- No cell was written after it had been read or written. -/
  once : chart.accesses.Pairwise fun earlier later => later.written? ≠ some earlier.bounds
  /-- The cells were written one after the other. Only that of a label without producers was not. -/
  written : chart.accesses.filterMap Access.written? = (order word.length).filter (assigned index word)
  /-- Every cell got its contents in its own turn and was empty before. -/
  turns : ∀ t, ∃ partly, ((order word.length).take t).forM (settle index traced word) (blank word.length) =
      some ((), partly) ∧
    ∀ i j, i ≤ j → j < word.length → partly.contents? i j =
      if (i, j) ∈ (order word.length).take t then chart.contents? i j else some ∅
  exact : ∀ i j, i ≤ j → j < word.length → ∃ contents, chart.contents? i j = some contents ∧
    ∀ id, id ∈ contents ↔ id ∈ (Chart.ofWord index word).cell i (j - i)
  unused : ∀ i j, (i, j) ∈ unused word.length → chart.contents? i j = some ∅

/-- The turns before a chart that is full, from the charts in between to it. -/
theorem Settled.orderly {index : Index} {traced : Bool} {word : List String} {before chart : FlatChart}
    {earlier : List (Nat × Nat)} {events : List ChartEvent}
    (h : Settled index word before earlier (order word.length) events chart)
    (turns : ∀ t, ∃ partly told told',
      ((order word.length).take t).forM (settle index traced word) (blank word.length) = some ((), partly) ∧
      Settled index word (blank word.length) [] ((order word.length).take t) told partly ∧
      Settled index word partly ((order word.length).take t) (order word.length) told' chart) :
    Orderly index traced word chart where
  inside := by
    intro a access
    obtain ⟨listed, -⟩ := h.accesses a access
    obtain ⟨ordered, inside⟩ := mem_order.mp listed
    rw [h.size]
    exact ⟨ordered, inside, slot_lt (Nat.lt_of_le_of_lt ordered inside) inside⟩
  final := fun a access => (h.accesses a access).2
  once := h.final
  written := h.written
  turns := by
    intro t
    obtain ⟨partly, _, _, run, now, later⟩ := turns t
    refine ⟨partly, run, fun i j ordered inside => ?_⟩
    by_cases settled : (i, j) ∈ (order word.length).take t
    · rw [if_pos settled]
      exact (later.kept _ settled).symm
    · rw [if_neg settled]
      exact now.untouched i j (by omega) inside settled
  exact := by
    intro i j ordered inside
    obtain ⟨contents, found, holds⟩ := h.exact (i, j) (mem_order.mpr ⟨ordered, inside⟩)
    refine ⟨contents, found, fun id => ?_⟩
    rw [holds, Chart.mem_cell_ofWord (by omega)]
  unused := by
    intro i j outside
    obtain ⟨below, inside⟩ := mem_unused.mp outside
    apply h.untouched i j inside (by omega)
    intro listed
    have := (mem_order.mp listed).1
    omega

theorem recognize_eq {index : Index} {traced : Bool} {word : List String} (nonempty : word ≠ []) :
    recognize index traced word = (do
      (order word.length).forM (settle index traced word)
      let last ← number word.length word.length 1
      let accepted := (← cell 0 last).contains index.start
      tell traced (.finished word.length accepted)
      return accepted) := by
  rw [recognize, if_neg nonempty, fill_eq]

theorem recognize_settled (index : Index) (traced : Bool) {word : List String} (nonempty : word ≠ []) :
    ∃ chart, recognize index traced word (blank word.length) = some (index.accepts word, chart) ∧
      Settled index word (blank word.length) [] (order word.length)
        ((order word.length).flatMap (told index traced word) ++
          if traced then [.finished word.length (index.accepts word)] else []) chart := by
  have start := settled_blank index word (blank word.length)
  obtain ⟨_, chart, run, rfl, full⟩ := finish_gives traced nonempty (List.nil_append _) _ start
  exact ⟨chart, by rw [recognize_eq nonempty]; exact run, full⟩

/-- Recognizing a word in one array never halts and comes to the verdict of its rows of cells. Different
    cells are in different slots. The cells are settled one after the other, each one in a turn of its
    own, and whatever is read has been settled before. -/
theorem recognize_orderly (index : Index) (traced : Bool) (word : List String) :
    (∃ chart, recognize index traced word (blank word.length) = some (index.accepts word, chart) ∧
      Orderly index traced word chart) ∧
    fill index traced word = (order word.length).forM (settle index traced word) ∧
    (∀ i j, (i, j) ∈ order word.length ↔ i ≤ j ∧ j < word.length) ∧
    (order word.length).Pairwise Chart.Before ∧
    2 * (order word.length).length = word.length * (word.length + 1) ∧
    (∀ i j, (i, j) ∈ unused word.length ↔ j < i ∧ i < word.length) ∧
    2 * (unused word.length).length = (word.length - 1) * word.length ∧
    ∀ i j k l, j < word.length → l < word.length → slot word.length i j = slot word.length k l →
      i = k ∧ j = l := by
  refine ⟨?_, fill_eq index traced word, fun _ _ => mem_order, pairwise_order _, length_order _,
    fun _ _ => mem_unused, ?_, fun i j k l hj hl same => slot_inj hj hl same⟩
  · by_cases empty : word = []
    · subst empty
      have none := settled_blank index [] (blank 0)
      refine ⟨blank 0, rfl, none.orderly fun t => ⟨blank 0, [], [], ?_, ?_, ?_⟩⟩
      all_goals rw [show (order ([] : List String).length).take t = [] from List.take_nil]
      · rfl
      · exact none
      · exact none
    · obtain ⟨chart, run, full⟩ := recognize_settled index traced empty
      refine ⟨chart, run, full.orderly fun t => ?_⟩
      have start := settled_blank index word (blank word.length)
      have place := List.take_append_drop t (order word.length)
      obtain ⟨_, partly, first, now⟩ := settled_forM traced ((List.nil_append _).symm ▸ place) _ start
      obtain ⟨_, same, rest, rfl, later⟩ := finish_gives traced empty place _ now.rebase
      have cut : (order word.length).forM (settle index traced word) = (do
          ((order word.length).take t).forM (settle index traced word)
          ((order word.length).drop t).forM (settle index traced word)) := by
        conv_lhs => rw [← place]
        exact List.forM_append
      rw [recognize_eq empty, cut, bind_assoc] at run
      have again := run.symm.trans ((bind_of_some first).trans rest)
      cases again
      exact ⟨partly, _, _, first, now, later⟩
  · rw [unused, List.length_map, length_order]
    cases word with
    | nil => rfl
    | cons => rfl

end FlatChart

end WordWalk
