import WordWalk.Proofs.SearchReport

/-! # What a traced search tells

A search finds the same whether or not it is traced. The walks that a traced search tells of
as explored are one for every recorded state, and the routes it reports are those among
them that are accepted arrivals.
-/

namespace WordWalk

/-- The last node and the labels. -/
def Route.state (r : Route) : Option String × List String := (r.nodes.getLast?, r.labels)

theorem Trail.route_state_eq_iff {t u : Trail} : t.route.state = u.route.state ↔ t.state = u.state := by
  have nodes : ∀ t : Trail, t.route.nodes.getLast? = some t.node := Query.route_getLast
  rw [Trail.state_eq_iff, Route.state, Route.state, Prod.mk.injEq, nodes, nodes, Option.some.injEq]
  exact and_congr_right fun _ => List.reverse_inj

def SearchEvent.explored? : SearchEvent → Option Route
  | .exploring r => some r
  | _ => none

namespace Progress

def mute (p : Progress) : Progress := { p with events := [] }

/-- The walks that the events tell of as explored, latest first. -/
def explored (p : Progress) : List Route := p.events.filterMap SearchEvent.explored?

end Progress

namespace Query

variable {q : Query} {p p' : Progress}

def quiet (q : Query) : Query := { q with traced := false }

def tracing (q : Query) : Query := { q with traced := true }

theorem Move.mute (m : q.Move p p') : q.quiet.Move p.mute p'.mute := by
  cases m with
  | drop next old => exact .drop next old
  | stop next fresh bound spent => exact .stop (q := q.quiet) next fresh bound spent
  | arrive next fresh room there => exact .arrive (q := q.quiet) (p := p.mute) next fresh room there
  | cut next fresh room away alive bound long =>
      exact .cut (q := q.quiet) (p := p.mute) next fresh room away alive bound long
  | follow next fresh room away short =>
      exact .follow (q := q.quiet) (p := p.mute) next fresh room away short

theorem after_quiet (q : Query) (n : Nat) : q.quiet.after n = (q.after n).mute := by
  have start : q.quiet.initial = q.initial.mute := rfl
  apply after_simulated Progress.mute start (fun _ => rfl)
  intro k _ p' m
  exact m.mute

theorem after_tracing (q : Query) (n : Nat) : (q.tracing.after n).mute = (q.after n).mute :=
  (q.tracing.after_quiet n).symm.trans (q.after_quiet n)

theorem final_tracing (q : Query) : q.tracing.final.mute = q.final.mute := by
  have rounds : q.tracing.rounds = q.rounds := rfl
  rw [final_eq_after, final_eq_after, rounds]
  exact q.after_tracing _

theorem final_quiet (q : Query) : q.quiet.final = q.final.mute := by
  have rounds : q.quiet.rounds = q.rounds := rfl
  rw [final_eq_after, final_eq_after, rounds]
  exact q.after_quiet _

theorem stack_tracing (q : Query) (n : Nat) : (q.tracing.after n).stack = (q.after n).stack := by
  have mute : ∀ p : Progress, p.stack = p.mute.stack := fun _ => rfl
  rw [mute, after_tracing, ← mute]

theorem terminates_tracing : q.tracing.Terminates ↔ q.Terminates := by
  simp only [Terminates, Progress.isSettled, stack_tracing]

theorem report_tracing (q : Query) : q.tracing.report = q.report := by
  have report : ∀ p : Progress, q.reportOn p = q.reportOn p.mute := fun _ => rfl
  calc q.tracing.report
    _ = q.reportOn q.tracing.final.mute := report _
    _ = q.reportOn q.final.mute := congrArg q.reportOn q.final_tracing
    _ = q.report := (report _).symm

theorem report_quiet (q : Query) : q.quiet.report = q.report := by
  have report : ∀ p : Progress, q.reportOn p.mute = q.reportOn p := fun _ => rfl
  exact (congrArg q.reportOn q.final_quiet).trans (report _)

/-- The walks that the search explores, in order, as a traced search tells of them. -/
def explored (q : Query) : List Route := q.tracing.events.filterMap SearchEvent.explored?

theorem explored_eq (q : Query) : q.explored = q.tracing.final.explored.reverse := by
  have last : ∀ why : Option Truncation,
      (why.map SearchEvent.truncated).toList.filterMap SearchEvent.explored? = [] := by
    intro why
    cases why <;> rfl
  rw [explored, events, eventsOf, List.filterMap_append, last, List.append_nil, List.filterMap_reverse]
  rfl

/-- The route is an accepted arrival at the target. -/
def reports (q : Query) (r : Route) : Bool :=
  r.nodes.getLast? == some q.target && q.index.accepts r.labels

theorem reports_route (t : Trail) :
    q.reports t.route = (t.node == q.target && q.index.accepts t.route.labels) := by
  rw [reports, route_getLast]
  rfl

/-- What is told agrees with what is recorded and found. -/
structure Told (q : Query) (p : Progress) : Prop where
  seen : ∀ t : Trail, t.state ∈ p.seen ↔ ∃ r ∈ p.explored, r.state = t.route.state
  size : p.explored.length = p.seen.size
  routes : p.routes = p.explored.filter q.reports

theorem explored_told (traced : q.traced = true) (more events : List SearchEvent) :
    (q.told more events).filterMap SearchEvent.explored? =
      (more.filterMap SearchEvent.explored?).reverse ++ events.filterMap SearchEvent.explored? := by
  rw [told, if_pos traced, List.filterMap_append, List.filterMap_reverse]

theorem explored_arrivalEvents (t : Trail) :
    (q.arrivalEvents t).filterMap SearchEvent.explored? = [] := by
  have charts : ∀ events : List ChartEvent,
      (events.map SearchEvent.chart).filterMap SearchEvent.explored? = [] := by
    intro events
    simp [List.filterMap_map, Function.comp_def, SearchEvent.explored?]
  rw [arrivalEvents, List.filterMap_append, charts]
  split <;> rfl

theorem told_initial (q : Query) : q.Told q.initial where
  seen := by simp [initial, Progress.explored]
  size := rfl
  routes := rfl

theorem Told.record (h : q.Told p) {t : Trail} (fresh : t.state ∉ p.seen)
    (explored : p'.explored = t.route :: p.explored) (seen : p'.seen = p.seen.insert t.state)
    (routes : p'.routes = if q.reports t.route then t.route :: p.routes else p.routes) : q.Told p' where
  seen := by
    intro u
    rw [seen, Saturation.mem_insert, explored, h.seen u]
    constructor
    · rintro (same | ⟨r, told, same⟩)
      · exact ⟨t.route, List.mem_cons_self, Trail.route_state_eq_iff.mpr same.symm⟩
      · exact ⟨r, List.mem_cons_of_mem _ told, same⟩
    · rintro ⟨r, told, same⟩
      cases told with
      | head => exact .inl (Trail.route_state_eq_iff.mp same).symm
      | tail _ told => exact .inr ⟨r, told, same⟩
  size := by
    rw [explored, seen, size_insert_fresh fresh, List.length_cons, h.size]
  routes := by
    rw [routes, explored, List.filter_cons, h.routes]

/-- Either nothing is told and nothing recorded, since the state is old or cannot be recorded, or
    the walk on top of the stack is explored. -/
theorem Move.explored (traced : q.traced = true) {t rest} (next : p.stack = t :: rest)
    (m : q.Move p p') :
    ((t.state ∈ p.seen ∨ q.limits.maxStates ≠ none) ∧
      p'.explored = p.explored ∧ p'.seen = p.seen ∧ p'.routes = p.routes) ∨
    (t.state ∉ p.seen ∧ p'.explored = t.route :: p.explored ∧ p'.seen = p.seen.insert t.state ∧
      p'.routes = if q.reports t.route then t.route :: p.routes else p.routes) := by
  have told : (q.told [.exploring t.route] p.events).filterMap SearchEvent.explored? =
      t.route :: p.explored := explored_told traced _ _
  cases m with
  | drop next' old =>
      obtain ⟨rfl, rfl⟩ := List.cons.inj (next.symm.trans next')
      exact .inl ⟨.inl old, rfl, rfl, rfl⟩
  | stop _ _ bound => exact .inl ⟨.inr (by simp [bound]), rfl, rfl, rfl⟩
  | arrive next' fresh _ there =>
      obtain ⟨rfl, rfl⟩ := List.cons.inj (next.symm.trans next')
      refine .inr ⟨fresh, ?_, rfl, ?_⟩
      · rw [Progress.explored, explored_told traced, explored_arrivalEvents, told]
        rfl
      · rw [reports_route, there, beq_self_eq_true, Bool.true_and]
  | cut next' fresh _ away | follow next' fresh _ away =>
      obtain ⟨rfl, rfl⟩ := List.cons.inj (next.symm.trans next')
      refine .inr ⟨fresh, told, rfl, ?_⟩
      rw [reports_route, beq_false_of_ne away, Bool.false_and]
      rfl

theorem Told.move (traced : q.traced = true) (h : q.Told p) (m : q.Move p p') : q.Told p' := by
  obtain ⟨t, rest, next⟩ := List.exists_cons_of_ne_nil m.unsettled
  rcases m.explored traced next with ⟨_, explored, seen, routes⟩ | ⟨fresh, explored, seen, routes⟩
  · exact ⟨seen ▸ explored ▸ h.seen, by rw [explored, seen, h.size], by rw [explored, routes, h.routes]⟩
  · exact h.record fresh explored seen routes

theorem told_after (traced : q.traced = true) (n : Nat) : q.Told (q.after n) :=
  after_induction q.told_initial (Told.move traced) n

theorem told_final (q : Query) : q.tracing.Told q.tracing.final := by
  rw [final_eq_after]
  exact told_after rfl _

theorem routes_eq_explored (q : Query) : q.report.routes = q.explored.filter q.reports := by
  rw [← report_tracing, explored_eq, List.filter_reverse]
  exact congrArg List.reverse q.told_final.routes

theorem expanded_eq_explored (q : Query) : q.report.expanded = q.explored.length := by
  rw [← report_tracing, explored_eq, List.length_reverse]
  exact q.told_final.size.symm

end Query

end WordWalk
