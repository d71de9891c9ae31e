/-! # Computations that may fail

A chain of steps succeeds exactly if every step does. For what succeeds it does not matter
which faults there are. Otherwise the first step that fails decides, and in a sorted chain it
is the least one.
-/

namespace WordWalk

variable {ε δ α β : Type}

theorem bind_eq_ok {r : Except ε α} {f : α → Except ε β} {y : β} :
    (r >>= f) = .ok y ↔ ∃ x, r = .ok x ∧ f x = .ok y := by
  cases r <;> simp [bind, Except.bind]

theorem map_eq_ok {r : Except ε α} {f : α → β} {y : β} : f <$> r = .ok y ↔ ∃ x, r = .ok x ∧ f x = y := by
  cases r <;> simp [Functor.map, Except.map]

theorem map_eq_error {r : Except ε α} {f : α → β} {e : ε} : r.map f = .error e ↔ r = .error e := by
  cases r <;> simp [Except.map]

theorem mapError_eq_ok {r : Except ε α} {f : ε → δ} {x : α} : r.mapError f = .ok x ↔ r = .ok x := by
  cases r with
  | error => exact iff_of_false nofun nofun
  | ok y =>
      change (.ok y : Except δ α) = .ok x ↔ _
      rw [Except.ok.injEq, Except.ok.injEq]

theorem toOption_eq_some {r : Except ε α} {x : α} : r.toOption = some x ↔ r = .ok x := by
  cases r <;> simp [Except.toOption]

theorem exists_error_iff {r : Except ε α} : (∃ e, r = .error e) ↔ ¬ ∃ x, r = .ok x := by
  cases r <;> simp

theorem toOption_mapM (f : α → Except ε β) (xs : List α) :
    (xs.mapM f).toOption = xs.mapM fun x => (f x).toOption := by
  induction xs with
  | nil => rfl
  | cons x xs ih =>
      rw [List.mapM_cons, List.mapM_cons, ← ih]
      cases f x with
      | error => rfl
      | ok y => cases xs.mapM f <;> rfl

/-- Putting away each result at once is the same as putting away all of them at the end. -/
theorem foldlM_eq_mapM {σ : Type} (f : α → Except ε β) (put : σ → β → σ) (xs : List α) (s : σ) :
    xs.foldlM (fun s x => do return put s (← f x)) s = (xs.mapM f).map (·.foldl put s) := by
  induction xs generalizing s with
  | nil => rfl
  | cons x xs ih =>
      rw [List.foldlM_cons, List.mapM_cons]
      cases f x with
      | error => rfl
      | ok y =>
          refine (ih (put s y)).trans ?_
          cases xs.mapM f <;> rfl

theorem mapM_eq_ok {xs : List α} {f : α → Except ε β} {g : α → β} (each : ∀ x ∈ xs, f x = .ok (g x)) :
    xs.mapM f = .ok (xs.map g) := by
  induction xs with
  | nil => rfl
  | cons x xs ih =>
      obtain ⟨first, later⟩ := List.forall_mem_cons.mp each
      rw [List.mapM_cons, first, ih later]
      rfl

theorem exists_mapM_eq_ok {xs : List α} {f : α → Except ε β} :
    (∃ ys, xs.mapM f = .ok ys) ↔ ∀ x ∈ xs, ∃ y, f x = .ok y := by
  induction xs with
  | nil => exact iff_of_true ⟨[], rfl⟩ nofun
  | cons x xs ih =>
      rw [List.forall_mem_cons, ← ih]
      simp only [List.mapM_cons, bind_eq_ok]
      constructor
      · rintro ⟨_, y, first, ys, later, _⟩
        exact ⟨⟨y, first⟩, ys, later⟩
      · rintro ⟨⟨y, first⟩, ys, later⟩
        exact ⟨y :: ys, y, first, ys, later, rfl⟩

/-! ### The first failure -/

/-- The element at this place is the first one that is not good. -/
structure FirstFailing (good : α → Prop) (xs : List α) (i : Nat) (x : α) : Prop where
  placed : xs[i]? = some x
  fails : ¬ good x
  earlier : ∀ j < i, ∀ y, xs[j]? = some y → good y

section FirstFailing

variable {good : α → Prop} {xs : List α} {x y : α}

theorem firstFailing_zero : FirstFailing good (x :: xs) 0 y ↔ y = x ∧ ¬ good x := by
  constructor
  · intro h
    obtain rfl : x = y := Option.some.inj h.placed
    exact ⟨rfl, h.fails⟩
  · rintro ⟨rfl, fails⟩
    exact ⟨rfl, fails, fun j before => absurd before (Nat.not_lt_zero j)⟩

theorem firstFailing_succ {i : Nat} :
    FirstFailing good (x :: xs) (i + 1) y ↔ good x ∧ FirstFailing good xs i y := by
  constructor
  · intro h
    refine ⟨h.earlier 0 (Nat.succ_pos i) x rfl, h.placed, h.fails, fun j before z placed => ?_⟩
    exact h.earlier (j + 1) (Nat.succ_lt_succ before) z placed
  · rintro ⟨first, h⟩
    refine ⟨h.placed, h.fails, fun j before z placed => ?_⟩
    cases j with
    | zero => exact Option.some.inj placed ▸ first
    | succ j => exact h.earlier j (Nat.lt_of_succ_lt_succ before) z placed

theorem FirstFailing.congr {fine : α → Prop} (same : ∀ x, good x ↔ fine x) {i : Nat} :
    FirstFailing good xs i x ↔ FirstFailing fine xs i x := by
  obtain rfl : good = fine := funext fun x => propext (same x)
  rfl

theorem firstFailing_zipIdx {i j : Nat} :
    FirstFailing (fun p : α × Nat => good p.1) xs.zipIdx i (x, j) ↔ j = i ∧ FirstFailing good xs i x := by
  have placed (k : Nat) (y : α) (n : Nat) : xs.zipIdx[k]? = some (y, n) ↔ n = k ∧ xs[k]? = some y := by
    rw [List.getElem?_zipIdx, Nat.zero_add, Option.map_eq_some_iff]
    constructor
    · rintro ⟨z, found, same⟩
      cases same
      exact ⟨rfl, found⟩
    · rintro ⟨rfl, found⟩
      exact ⟨y, found, rfl⟩
  constructor
  · intro h
    obtain ⟨rfl, found⟩ := (placed i x j).mp h.placed
    exact ⟨rfl, found, h.fails, fun k before y at_ => h.earlier k before (y, k) ((placed k y k).mpr ⟨rfl, at_⟩)⟩
  · rintro ⟨rfl, h⟩
    refine ⟨(placed j x j).mpr ⟨rfl, h.placed⟩, h.fails, fun k before p found => ?_⟩
    exact h.earlier k before p.1 ((placed k p.1 p.2).mp found).2

/-- A chain of steps stops with the fault of the first step that fails. -/
theorem mapM_eq_error {f : α → Except ε β} {e : ε} :
    xs.mapM f = .error e ↔ ∃ i x, FirstFailing (fun x => ∃ y, f x = .ok y) xs i x ∧ f x = .error e := by
  induction xs with
  | nil => exact iff_of_false nofun fun ⟨i, x, first, _⟩ => nomatch first.placed
  | cons x xs ih =>
      rw [List.mapM_cons]
      cases step : f x with
      | error d =>
          constructor
          · rintro ⟨⟩
            exact ⟨0, x, firstFailing_zero.mpr ⟨rfl, by simp [step]⟩, step⟩
          · rintro ⟨i, z, first, stops⟩
            cases i with
            | zero =>
                obtain ⟨rfl, _⟩ := firstFailing_zero.mp first
                exact congrArg _ (Except.error.inj (step.symm.trans stops))
            | succ i =>
                obtain ⟨⟨y, done⟩, _⟩ := firstFailing_succ.mp first
                exact nomatch step.symm.trans done
      | ok y =>
          have later : (do let ys ← xs.mapM f; pure (y :: ys)) = .error e ↔ xs.mapM f = .error e := by
            cases xs.mapM f <;> simp [bind, Except.bind, pure, Except.pure]
          refine Iff.trans later (ih.trans ?_)
          constructor
          · rintro ⟨i, z, first, stops⟩
            exact ⟨i + 1, z, firstFailing_succ.mpr ⟨⟨y, step⟩, first⟩, stops⟩
          · rintro ⟨i, z, first, stops⟩
            cases i with
            | zero =>
                obtain ⟨rfl, fails⟩ := firstFailing_zero.mp first
                exact absurd ⟨y, step⟩ fails
            | succ i => exact ⟨i, z, (firstFailing_succ.mp first).2, stops⟩

/-- In a sorted list the first element that fails is the least one. -/
theorem exists_firstFailing_iff {R : α → α → Prop} (asymm : ∀ a b, R a b → ¬ R b a)
    (sorted : xs.Pairwise R) :
    (∃ i, FirstFailing good xs i x) ↔ x ∈ xs ∧ ¬ good x ∧ ∀ y ∈ xs, R y x → good y := by
  rw [List.pairwise_iff_getElem] at sorted
  constructor
  · rintro ⟨i, placed, fails, earlier⟩
    refine ⟨List.mem_of_getElem? placed, fails, fun y member less => ?_⟩
    obtain ⟨j, found⟩ := List.mem_iff_getElem?.mp member
    obtain ⟨hi, rfl⟩ := List.getElem?_eq_some_iff.mp placed
    obtain ⟨hj, rfl⟩ := List.getElem?_eq_some_iff.mp found
    rcases Nat.lt_trichotomy j i with before | rfl | after
    · exact earlier j before _ found
    · exact absurd less (asymm _ _ less)
    · exact absurd (sorted i j hi hj after) (asymm _ _ less)
  · rintro ⟨member, fails, earlier⟩
    obtain ⟨i, placed⟩ := List.mem_iff_getElem?.mp member
    refine ⟨i, placed, fails, fun j before y found => ?_⟩
    obtain ⟨hi, rfl⟩ := List.getElem?_eq_some_iff.mp placed
    obtain ⟨hj, rfl⟩ := List.getElem?_eq_some_iff.mp found
    exact earlier _ (List.getElem_mem hj) (sorted j i hj hi before)

theorem findSome?_eq_some {f : α → Option β} {b : β} :
    xs.findSome? f = some b ↔ ∃ i x, FirstFailing (fun x => f x = none) xs i x ∧ f x = some b := by
  rw [List.findSome?_eq_some_iff]
  constructor
  · rintro ⟨before, x, after, rfl, found, none⟩
    refine ⟨before.length, x, ⟨by simp, by simp [found], fun j less y placed => ?_⟩, found⟩
    rw [List.getElem?_append_left less] at placed
    exact none y (List.mem_of_getElem? placed)
  · rintro ⟨i, x, first, found⟩
    obtain ⟨inside, rfl⟩ := List.getElem?_eq_some_iff.mp first.placed
    refine ⟨xs.take i, xs[i], xs.drop (i + 1), by simp, found, fun y member => ?_⟩
    obtain ⟨j, less, rfl⟩ := List.mem_take_iff_getElem.mp member
    exact first.earlier j (by omega) _ (List.getElem?_eq_getElem _)

end FirstFailing

end WordWalk
