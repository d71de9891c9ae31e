import WordWalk.Proofs.SearchOrder

/-! # Searches with other limits

With a smaller number of states a search takes the same steps until the number is used up, so
all that it finds and tells is the beginning of what it would go on to. With a smaller greatest
length the steps differ early, but the search still explores the same walks in the same
order, only without the longer ones.
-/

namespace WordWalk

/-- The events without the truncation that may come last. -/
def untruncated (events : List SearchEvent) : List SearchEvent :=
  match events.getLast? with
  | some (.truncated _) => events.dropLast
  | _ => events

theorem untruncated_prefix (events : List SearchEvent) : untruncated events <+: events := by
  unfold untruncated
  split
  · exact List.dropLast_prefix events
  · exact List.prefix_refl events

theorem untruncated_concat (events : List SearchEvent) (why : Truncation) :
    untruncated (events ++ [.truncated why]) = events := by
  simp [untruncated]

namespace Query

variable {q : Query} {p p' : Progress}

def withStates (q : Query) (bound : Option Nat) : Query := { q with limits.maxStates := bound }

def withLength (q : Query) (limit : Option Nat) : Query := { q with limits.maxLength := limit }

/-- The progress ended by a state that could not be recorded. -/
def stopped (bound : Nat) (p : Progress) : Progress :=
  { p with stack := [], truncation := some (.states bound) }

variable {bound : Nat} {more : Option Nat}

/-- A move with a smaller number of states is a move with a larger one, or uses the number up. -/
theorem Move.raise (larger : ∀ n, more = some n → bound ≤ n)
    (m : (q.withStates (some bound)).Move p p') :
    (q.withStates more).Move p p' ∨ bound ≤ p.seen.size ∧ p' = stopped bound p := by
  have more_room : (∀ n, some bound = some n → p.seen.size < n) →
      ∀ n, more = some n → p.seen.size < n :=
    fun room n set => Nat.lt_of_lt_of_le (room bound rfl) (larger n set)
  cases m with
  | drop next old => exact .inl (.drop next old)
  | @stop _ _ limit _ _ set spent =>
      obtain rfl : bound = limit := Option.some.inj set
      exact .inr ⟨spent, rfl⟩
  | arrive next fresh room there =>
      exact .inl (.arrive (q := q.withStates more) next fresh (more_room room) there)
  | cut next fresh room away alive set long =>
      exact .inl (.cut (q := q.withStates more) next fresh (more_room room) away alive set long)
  | follow next fresh room away short =>
      exact .inl (.follow (q := q.withStates more) next fresh (more_room room) away short)

/-- The search with the smaller number of states keeps step with the other one, until it stops
    where the other one was once. -/
theorem after_withStates (larger : ∀ n, more = some n → bound ≤ n) (n : Nat) :
    (q.withStates (some bound)).after n = (q.withStates more).after n ∨
    ∃ k, ((q.withStates more).after k).seen.size = bound ∧
      (q.withStates (some bound)).after n = stopped bound ((q.withStates more).after k) := by
  induction n with
  | zero => exact .inl rfl
  | succ n ih =>
      rcases ih with same | ⟨k, size, ended⟩
      · cases next : ((q.withStates (some bound)).after n).stack with
        | nil =>
            refine .inl ?_
            rw [after, after, ← same, step_settled next, step_settled next]
        | cons t rest =>
            have m := step_move (q := q.withStates (some bound)) next
            rcases m.raise larger with raised | ⟨spent, ended⟩
            · refine .inl ?_
              rw [after, after, ← same]
              exact raised.step_eq.symm
            · have within := ((q.withStates (some bound)).sound_after n).room bound rfl
              rw [same] at spent within
              refine .inr ⟨n, Nat.le_antisymm within spent, ?_⟩
              rw [after, ended, same]
      · refine .inr ⟨k, size, ?_⟩
        have settled : ((q.withStates (some bound)).after n).stack = [] := by rw [ended]; rfl
        rw [after, step_settled settled, ended]

theorem final_withStates (larger : ∀ n, more = some n → bound ≤ n) (ends : (q.withStates more).Terminates) :
    (q.withStates (some bound)).final = (q.withStates more).final ∨
    ∃ p, Grows p (q.withStates more).final ∧ p.seen.size = bound ∧
      (q.withStates (some bound)).final = stopped bound p := by
  have small : (q.withStates (some bound)).Terminates := terminates_of_maxStates rfl
  have settled := final_settled small
  rw [final_eq_after (q.withStates (some bound))] at settled ⊢
  rcases after_withStates larger (2 ^ (q.withStates (some bound)).rounds - 1) with same | ⟨k, size, ended⟩
  · rw [same] at settled ⊢
    exact .inl (final_of_settled settled).symm
  · exact .inr ⟨_, final_grows ends k, size, ended⟩

/-- The search with the smaller number of states finds a beginning of the routes, records as many
    states as it can, and tells a beginning of the events before it tells of a truncation. -/
theorem report_withStates (larger : ∀ n, more = some n → bound ≤ n)
    (ends : more = none → (q.withStates none).Terminates) :
    (q.withStates (some bound)).Terminates ∧
    (q.withStates (some bound)).report.routes <+: (q.withStates more).report.routes ∧
    (q.withStates (some bound)).report.expanded = min bound (q.withStates more).report.expanded ∧
    untruncated (q.withStates (some bound)).events <+: (q.withStates more).events := by
  have ends : (q.withStates more).Terminates := by
    cases more with
    | none => exact ends rfl
    | some n => exact terminates_of_maxStates rfl
  refine ⟨terminates_of_maxStates rfl, ?_⟩
  simp only [report, reportOn, events]
  rcases final_withStates larger ends with same | ⟨p, grows, size, ended⟩
  · have within := (q.withStates (some bound)).sound_final.room bound rfl
    rw [same] at within ⊢
    exact ⟨List.prefix_refl _, (Nat.min_eq_right within).symm, untruncated_prefix _⟩
  · rw [ended]
    refine ⟨List.reverse_prefix.mpr grows.routes, ?_, ?_⟩
    · exact size.trans (Nat.min_eq_left (size ▸ grows.size)).symm
    · have told : eventsOf (stopped bound p) = p.events.reverse ++ [.truncated (.states bound)] := rfl
      rw [told, untruncated_concat]
      exact (List.reverse_prefix.mpr grows.events).trans (List.prefix_append _ _)

theorem budget_loops :
    (∀ n, (none : Option Nat) = some n → 10 ≤ n) ∧ (loops.withStates none).Terminates ∧
    (loops.withStates (some 10)).report.expanded = 10 ∧
    (loops.withStates (some 10)).report.routes <+: (loops.withStates none).report.routes := by
  have unset : ∀ n, (none : Option Nat) = some n → 10 ≤ n := by simp
  have ends : (loops.withStates none).Terminates := ⟨25, by decide +kernel⟩
  have all : (loops.withStates none).report.expanded = 25 := by decide +kernel
  obtain ⟨_, routes, expanded, _⟩ := report_withStates unset fun _ => ends
  refine ⟨unset, ends, ?_, routes⟩
  rw [expanded, all]
  rfl

theorem explored_unknown (unknown : q.source ∉ q.graph) : q.explored = [] := by
  rw [explored_eq, final_unknown (q := q.tracing) unknown]
  rfl

theorem filter_listing {limit depth : Nat} (less : limit ≤ depth) :
    (q.listing depth).filter (·.labels.length ≤ limit) = q.listing limit := by
  have short : (fun r : Route => decide (r.labels.length ≤ limit)) ∘ Trail.route =
      fun t => decide (t.labels.length ≤ limit) := by
    funext t
    simp
  rw [listing, List.filter_map, short, Graph.filter_preorder (Nat.zero_le _) (by simpa [Trail.start])]
  rfl

theorem deep_withLength {limit : Nat} {longer : Option Nat} (unset : q.limits.maxStates = none)
    (known : q.source ∈ q.graph) (larger : ∀ n, longer = some n → limit ≤ n)
    (ends : longer = none → (q.withLength none).Terminates) :
    ∃ depth, limit ≤ depth ∧ (q.withLength longer).Deep depth := by
  cases longer with
  | some n => exact ⟨n, larger n rfl, .of_maxLength rfl⟩
  | none =>
      have straight := straight_of_terminates (ends rfl) known unset rfl
      refine ⟨max limit q.graph.nodeCount, Nat.le_max_left _ _, .of_length rfl ?_⟩
      intro t reached
      exact Nat.le_trans (reached.length_le_of_straight straight) (Nat.le_max_right _ _)

theorem explored_withLength {limit : Nat} {longer : Option Nat} (unset : q.limits.maxStates = none)
    (larger : ∀ n, longer = some n → limit ≤ n) (ends : longer = none → (q.withLength none).Terminates) :
    (q.withLength (some limit)).explored =
      (q.withLength longer).explored.filter (·.labels.length ≤ limit) := by
  by_cases known : q.source ∈ q.graph
  · obtain ⟨depth, less, deep⟩ := deep_withLength unset known larger ends
    have short : (q.withLength (some limit)).explored = Route.firsts (q.listing limit) :=
      explored_eq_firsts (.of_maxLength rfl) unset known
    have long : (q.withLength longer).explored = Route.firsts (q.listing depth) :=
      explored_eq_firsts deep unset known
    have same : ∀ {a b : Route}, a.state = b.state →
        decide (a.labels.length ≤ limit) = decide (b.labels.length ≤ limit) := by
      intro a b equal
      rw [(Prod.mk.inj equal).2]
    rw [short, long, Route.filter_firsts same, filter_listing less]
  · rw [explored_unknown (q := q.withLength (some limit)) known,
      explored_unknown (q := q.withLength longer) known]
    rfl

/-- Without a bound on the states, the search with the smaller greatest length explores and
    reports what the other one does, in the same order, except for the longer walks. -/
theorem report_withLength {limit : Nat} {longer : Option Nat} (unset : q.limits.maxStates = none)
    (larger : ∀ n, longer = some n → limit ≤ n) (ends : longer = none → (q.withLength none).Terminates) :
    (q.withLength (some limit)).Terminates ∧ (q.withLength longer).Terminates ∧
    (q.withLength (some limit)).report.routes =
      (q.withLength longer).report.routes.filter (·.labels.length ≤ limit) ∧
    (q.withLength (some limit)).explored =
      (q.withLength longer).explored.filter (·.labels.length ≤ limit) ∧
    (q.withLength (some limit)).report.expanded =
      ((q.withLength longer).explored.filter (·.labels.length ≤ limit)).length := by
  have explored := explored_withLength unset larger ends
  refine ⟨terminates_of_maxLength rfl, ?_, ?_, explored, ?_⟩
  · cases longer with
    | some n => exact terminates_of_maxLength rfl
    | none => exact ends rfl
  · rw [routes_eq_explored, routes_eq_explored, explored]
    exact List.filter_comm _ _ _
  · rw [expanded_eq_explored, explored]

theorem lengths_loops :
    loops.limits.maxStates = none ∧ (∀ n, some 4 = some n → 3 ≤ n) ∧
    (loops.withLength (some 4)).explored.length = 25 ∧
    (loops.withLength (some 3)).report.routes = [⟨["s", "s", "t"], ["a", "b"]⟩] ∧
    (loops.withLength (some 3)).report.expanded = 16 := by
  have larger : ∀ n, some 4 = some n → 3 ≤ n := by simp
  obtain ⟨_, _, routes, _, expanded⟩ := report_withLength (q := loops) rfl larger (by simp)
  refine ⟨rfl, larger, by decide +kernel, ?_, ?_⟩
  · rw [routes]
    decide +kernel
  · rw [expanded]
    decide +kernel

end Query

end WordWalk
