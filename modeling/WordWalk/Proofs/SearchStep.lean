import WordWalk.Search.Basic

/-! # The steps of a search

A step does one of five things with the walk on top of the stack. `Move` says which, under
what conditions and with what effect, so that everything that a search preserves is
checked against five cases.
-/

namespace WordWalk.Query

def arrivalEvents (q : Query) (t : Trail) : List SearchEvent :=
  (q.index.recognitionEvents t.route.labels).map .chart ++
    [if q.index.accepts t.route.labels then .accepted t.route else .rejected t.route]

/-- The events after some more, oldest first, if the search is traced. -/
def told (q : Query) (more events : List SearchEvent) : List SearchEvent :=
  if q.traced then more.reverse ++ events else events

/-- What a step makes of a progress that is not settled. -/
inductive Move (q : Query) (p : Progress) : Progress → Prop
  /-- The state was recorded before. -/
  | drop {t rest} (next : p.stack = t :: rest) (old : t.state ∈ p.seen) :
      Move q p { p with stack := rest }
  /-- A new state turned up and may not be recorded. -/
  | stop {t rest limit} (next : p.stack = t :: rest) (fresh : t.state ∉ p.seen)
      (bound : q.limits.maxStates = some limit) (spent : limit ≤ p.seen.size) :
      Move q p { p with stack := [], truncation := some (.states limit) }
  /-- A new walk ends at the target. -/
  | arrive {t rest} (next : p.stack = t :: rest) (fresh : t.state ∉ p.seen)
      (room : ∀ limit, q.limits.maxStates = some limit → p.seen.size < limit)
      (there : t.node = q.target) :
      Move q p
        { p with
          stack := rest
          seen := p.seen.insert t.state
          routes := if q.index.accepts t.route.labels then t.route :: p.routes else p.routes
          events := q.told (q.arrivalEvents t) (q.told [.exploring t.route] p.events) }
  /-- A new walk could be continued but has the greatest length. -/
  | cut {t rest limit} (next : p.stack = t :: rest) (fresh : t.state ∉ p.seen)
      (room : ∀ limit, q.limits.maxStates = some limit → p.seen.size < limit)
      (away : t.node ≠ q.target) (alive : q.graph.edges t.node ≠ [])
      (bound : q.limits.maxLength = some limit) (long : limit ≤ t.labels.length) :
      Move q p
        { p with
          stack := rest
          seen := p.seen.insert t.state
          truncation := p.truncation.or (some (.length limit))
          events := q.told [.exploring t.route] p.events }
  /-- A new walk is continued along all edges that there are. -/
  | follow {t rest} (next : p.stack = t :: rest) (fresh : t.state ∉ p.seen)
      (room : ∀ limit, q.limits.maxStates = some limit → p.seen.size < limit)
      (away : t.node ≠ q.target)
      (short : q.graph.edges t.node = [] ∨
        ∀ limit, q.limits.maxLength = some limit → t.labels.length < limit) :
      Move q p
        { p with
          stack := ((q.graph.edges t.node).map t.extend).reverse ++ rest
          seen := p.seen.insert t.state
          events := q.told [.exploring t.route] p.events }

theorem tell_eq (q : Query) (p : Progress) (events : Unit → List SearchEvent) :
    p.tell q.traced events = { p with events := q.told (events ()) p.events } := by
  unfold Progress.tell told
  split <;> rfl

theorem arrive_eq (q : Query) (t : Trail) (p : Progress) :
    q.arrive t p =
      { p with
        routes := if q.index.accepts t.route.labels then t.route :: p.routes else p.routes
        events := q.told (q.arrivalEvents t) p.events } := by
  simp only [arrive, tell_eq, arrivalEvents, Index.accepts, Index.recognitionEvents]
  split <;> simp only [*, if_true, if_false, Bool.false_eq_true]

theorem filter_le_eq_none {bound : Option Nat} {n : Nat} :
    bound.filter (· ≤ n) = none ↔ ∀ limit, bound = some limit → n < limit := by
  simp [Option.filter_eq_none_iff]

theorem filter_le_eq_some {bound : Option Nat} {n limit : Nat} :
    bound.filter (· ≤ n) = some limit ↔ bound = some limit ∧ limit ≤ n := by
  simp [Option.filter_eq_some_iff]

theorem step_settled {q : Query} {p : Progress} (settled : p.stack = []) : q.step p = p := by
  simp only [step, settled]

/-- Every step with a walk on the stack is one of the five moves. -/
theorem step_move {q : Query} {p : Progress} {t rest} (next : p.stack = t :: rest) :
    q.Move p (q.step p) := by
  simp only [step, next]
  split
  · rename_i old
    exact .drop next old
  rename_i fresh
  split
  · rename_i limit spent
    obtain ⟨bound, spent⟩ := filter_le_eq_some.mp spent
    exact .stop next fresh bound spent
  rename_i room
  replace room := filter_le_eq_none.mp room
  simp only [visit, tell_eq]
  split
  · rename_i there
    rw [arrive_eq]
    exact .arrive next fresh room there
  · rename_i away
    simp only [expand]
    split
    · rename_i none
      have move := Move.follow next fresh room away (.inl none)
      simpa only [none, List.map_nil, List.reverse_nil, List.nil_append] using move
    · rename_i alive
      split
      · rename_i limit long
        obtain ⟨bound, long⟩ := filter_le_eq_some.mp long
        exact .cut next fresh room away alive bound long
      · rename_i short
        exact .follow next fresh room away (.inr (filter_le_eq_none.mp short))

theorem Move.step_eq {q : Query} {p p' : Progress} (m : q.Move p p') : q.step p = p' := by
  cases m with
  | drop next old => simp only [step, next, if_pos old]
  | stop next fresh bound spent =>
      simp only [step, next, if_neg fresh, exhausted?, filter_le_eq_some.mpr ⟨bound, spent⟩]
  | arrive next fresh room there =>
      simp only [step, next, if_neg fresh, exhausted?, filter_le_eq_none.mpr room, visit, tell_eq,
        if_pos there, arrive_eq]
  | cut next fresh room away alive bound long =>
      simp only [step, next, if_neg fresh, exhausted?, filter_le_eq_none.mpr room, visit, tell_eq,
        if_neg away, expand, filter_le_eq_some.mpr ⟨bound, long⟩]
  | follow next fresh room away short =>
      simp only [step, next, if_neg fresh, exhausted?, filter_le_eq_none.mpr room, visit, tell_eq,
        if_neg away, expand]
      split
      · rename_i none
        simp only [none, List.map_nil, List.reverse_nil, List.nil_append]
      · rename_i alive
        rw [filter_le_eq_none.mpr (short.resolve_left alive)]

theorem Move.unsettled {q : Query} {p p' : Progress} (m : q.Move p p') : p.stack ≠ [] := by
  cases m with
  | drop next | stop next | arrive next | cut next | follow next =>
      rw [next]
      exact List.cons_ne_nil _ _

/-- What holds at the start and survives every move, given what is known of the progress before
    it, holds after any number of steps. -/
theorem after_induction_of {q : Query} {I P : Progress → Prop} (known : ∀ n, I (q.after n))
    (initial : P q.initial) (move : ∀ {p p'}, I p → P p → q.Move p p' → P p') (n : Nat) :
    P (q.after n) := by
  induction n with
  | zero => exact initial
  | succ n ih =>
      rw [after]
      match stack : (q.after n).stack with
      | [] => rwa [step_settled stack]
      | _ :: _ => exact move (known n) ih (step_move stack)

theorem after_induction {q : Query} {P : Progress → Prop} (initial : P q.initial)
    (move : ∀ {p p'}, P p → q.Move p p' → P p') (n : Nat) : P (q.after n) :=
  after_induction_of (I := fun _ => True) (fun _ => trivial) initial (fun _ => move) n

/-- What was found, told and recorded stays, and nothing left out is taken up again. -/
structure Grows (p p' : Progress) : Prop where
  routes : p.routes <:+ p'.routes
  events : p.events <:+ p'.events
  size : p.seen.size ≤ p'.seen.size
  whole : p'.truncation = none → p.truncation = none

theorem Grows.refl (p : Progress) : Grows p p :=
  ⟨List.suffix_refl _, List.suffix_refl _, Nat.le_refl _, id⟩

theorem Grows.trans {a b c : Progress} (h : Grows a b) (k : Grows b c) : Grows a c :=
  ⟨h.routes.trans k.routes, h.events.trans k.events, Nat.le_trans h.size k.size,
    fun whole => h.whole (k.whole whole)⟩

theorem suffix_told (q : Query) (more events : List SearchEvent) : events <:+ q.told more events := by
  unfold told
  split
  · exact List.suffix_append _ _
  · exact List.suffix_refl _

theorem Move.grows {q : Query} {p p' : Progress} (m : q.Move p p') : Grows p p' := by
  have larger : ∀ t : Trail, p.seen.size ≤ (p.seen.insert t.state).size :=
    fun _ => Std.TreeSet.size_le_size_insert
  cases m with
  | drop => exact ⟨List.suffix_refl _, List.suffix_refl _, Nat.le_refl _, id⟩
  | stop => exact ⟨List.suffix_refl _, List.suffix_refl _, Nat.le_refl _, fun whole => by cases whole⟩
  | @arrive t =>
      refine ⟨?_, (suffix_told q [.exploring t.route] _).trans (suffix_told q _ _), larger t, id⟩
      dsimp only
      split
      · exact List.suffix_cons _ _
      · exact List.suffix_refl _
  | @cut t =>
      refine ⟨List.suffix_refl _, suffix_told q _ _, larger t, ?_⟩
      intro whole
      exact (Option.or_eq_none_iff.mp whole).1
  | @follow t => exact ⟨List.suffix_refl _, suffix_told q _ _, larger t, id⟩

theorem step_grows (q : Query) (p : Progress) : Grows p (q.step p) := by
  cases next : p.stack with
  | nil =>
      rw [step_settled next]
      exact .refl p
  | cons t rest => exact (step_move next).grows

theorem after_grows (q : Query) {n m : Nat} (earlier : n ≤ m) : Grows (q.after n) (q.after m) := by
  induction earlier with
  | refl => exact .refl _
  | step _ ih => exact ih.trans (q.step_grows _)

/-- A query that makes every move of another one, seen through a view, has the same run. -/
theorem after_simulated {q q' : Query} (view : Progress → Progress)
    (initial : q'.initial = view q.initial) (stack : ∀ p, (view p).stack = p.stack) {n : Nat}
    (move : ∀ k < n, ∀ {p'}, q.Move (q.after k) p' → q'.Move (view (q.after k)) (view p')) :
    q'.after n = view (q.after n) := by
  induction n with
  | zero => exact initial
  | succ n ih =>
      have before : q'.after n = view (q.after n) :=
        ih fun k earlier => move k (Nat.lt_succ_of_lt earlier)
      rw [after, after, before]
      match next : (q.after n).stack with
      | [] => rw [step_settled next, step_settled ((stack _).trans next)]
      | _ :: _ => exact (move n (Nat.lt_succ_self n) (step_move next)).step_eq

end WordWalk.Query
