import WordWalk.Proofs.SearchLimits

/-! # What is told of each walk

A traced search tells of one walk after the other. What it tells of a walk depends on the walk
alone: that it is explored and, if it has arrived, how its labels are recognized and the
verdict. Nothing is told of a walk that is dropped, and a truncation is told last.
-/

namespace WordWalk

def SearchEvent.accepted? : SearchEvent → Option Route
  | .accepted r => some r
  | _ => none

namespace Query

variable {q : Query} {p p' : Progress}

/-- What is told of a walk that is explored. -/
def episode (q : Query) (r : Route) : List SearchEvent :=
  .exploring r ::
    if r.nodes.getLast? = some q.target then
      (q.index.recognitionEvents r.labels).map .chart ++
        [if q.index.accepts r.labels then .accepted r else .rejected r]
    else []

theorem episode_arrived {t : Trail} (there : t.node = q.target) :
    q.episode t.route = .exploring t.route :: q.arrivalEvents t := by
  rw [episode, if_pos (there ▸ route_getLast t), arrivalEvents]

theorem episode_away {t : Trail} (away : t.node ≠ q.target) :
    q.episode t.route = [.exploring t.route] := by
  rw [episode, if_neg]
  simpa using away

theorem explored_episode (q : Query) (r : Route) : (q.episode r).filterMap SearchEvent.explored? = [r] := by
  simp only [episode, List.filterMap_cons, SearchEvent.explored?]
  split
  · rw [List.filterMap_append, List.filterMap_map]
    split <;> simp [SearchEvent.explored?, Function.comp_def]
  · rfl

theorem accepted_episode (q : Query) (r : Route) :
    (q.episode r).filterMap SearchEvent.accepted? = [r].filter q.reports := by
  simp only [episode, List.filterMap_cons, SearchEvent.accepted?, List.filter_singleton, reports]
  split
  · rename_i there
    rw [List.filterMap_append, List.filterMap_map]
    cases q.index.accepts r.labels <;> simp [SearchEvent.accepted?, Function.comp_def, there]
  · rename_i away
    rw [beq_false_of_ne away]
    rfl

theorem truncated_notMem_episode (q : Query) (r : Route) (why : Truncation) :
    .truncated why ∉ q.episode r := by
  simp only [episode, List.mem_cons]
  split
  · split <;> simp
  · simp

/-- A move tells nothing or all there is to tell of a walk whose state is new. -/
theorem Move.episode (traced : q.traced = true) (m : q.Move p p') :
    p'.events = p.events ∨
      ∃ t : Trail, t.state ∉ p.seen ∧ p'.events = (q.episode t.route).reverse ++ p.events := by
  cases m with
  | drop => exact .inl rfl
  | stop => exact .inl rfl
  | arrive _ fresh _ there =>
      refine .inr ⟨_, fresh, ?_⟩
      simp [episode_arrived there, told, traced]
  | cut _ fresh _ away | follow _ fresh _ away =>
      refine .inr ⟨_, fresh, ?_⟩
      simp [episode_away away, told, traced]

/-- All that is told are the episodes of the walks explored, and those are different states. -/
structure Episodic (q : Query) (p : Progress) : Prop where
  events : p.events.reverse = p.explored.reverse.flatMap q.episode
  distinct : (p.explored.map Route.state).Nodup

theorem Episodic.record (h : q.Episodic p) (told : q.Told p) {t : Trail} (fresh : t.state ∉ p.seen)
    (events : p'.events = (q.episode t.route).reverse ++ p.events) : q.Episodic p' := by
  have explored : p'.explored = t.route :: p.explored := by
    rw [Progress.explored, events, List.filterMap_append, List.filterMap_reverse, explored_episode]
    rfl
  constructor
  · rw [events, explored, List.reverse_append, List.reverse_reverse, h.events, List.reverse_cons,
      List.flatMap_append, List.flatMap_singleton]
  · rw [explored, List.map_cons, List.nodup_cons]
    refine ⟨fun member => fresh ?_, h.distinct⟩
    exact (told.seen t).mpr (List.mem_map.mp member)

theorem Episodic.move (traced : q.traced = true) (told : q.Told p) (h : q.Episodic p)
    (m : q.Move p p') : q.Episodic p' := by
  rcases m.episode traced with same | ⟨t, fresh, events⟩
  · have explored : p'.explored = p.explored := by
      rw [Progress.explored, same]
      rfl
    exact ⟨by rw [same, explored, h.events], explored ▸ h.distinct⟩
  · exact h.record told fresh events

theorem episodic_after (traced : q.traced = true) (n : Nat) : q.Episodic (q.after n) :=
  after_induction_of (told_after traced) ⟨rfl, List.nodup_nil⟩ (Episodic.move traced) n

theorem episodic_final (q : Query) : q.tracing.Episodic q.tracing.final := by
  rw [final_eq_after]
  exact episodic_after rfl _

theorem truncation_final (q : Query) : q.final.truncation = q.report.truncation? := by
  by_cases known : q.source ∈ q.graph
  · exact (truncation_report known).symm
  · rw [truncation_unknown known, final_unknown known]
    rfl

theorem events_episodes (q : Query) :
    q.tracing.events =
      q.explored.flatMap q.episode ++ (q.tracing.report.truncation?.map .truncated).toList := by
  rw [events, eventsOf, truncation_final, q.episodic_final.events, explored_eq]
  rfl

theorem accepted_events (q : Query) :
    q.tracing.events.filterMap SearchEvent.accepted? = q.explored.filter q.reports := by
  have last : ∀ why : Option Truncation,
      (why.map SearchEvent.truncated).toList.filterMap SearchEvent.accepted? = [] := by
    intro why
    cases why <;> rfl
  rw [events_episodes, List.filterMap_append, last, List.append_nil, List.filterMap_flatMap]
  simp only [accepted_episode]
  rw [← List.filter_flatMap, List.flatMap_singleton']

theorem truncated_mem_events (q : Query) (why : Truncation) :
    .truncated why ∈ q.tracing.events ↔ q.tracing.report.truncation? = some why := by
  rw [events_episodes, List.mem_append, or_iff_right]
  · simp
  · intro told
    obtain ⟨r, _, member⟩ := List.mem_flatMap.mp told
    exact q.truncated_notMem_episode r why member

/-- Tracing changes neither the report nor whether there is one. A traced search tells one
    episode after the other, one for every recorded state, and then why it left something
    out, if it did. The accepted arrivals that it tells of are the routes of the report. -/
theorem tracing_faithful (q : Query) :
    (q.tracing.Terminates ↔ q.quiet.Terminates) ∧ q.tracing.report = q.quiet.report ∧
    q.explored.length = q.tracing.report.expanded ∧ (q.explored.map Route.state).Nodup ∧
    q.tracing.events =
      q.explored.flatMap q.episode ++ (q.tracing.report.truncation?.map .truncated).toList ∧
    q.tracing.events.filterMap SearchEvent.accepted? = q.tracing.report.routes ∧
    (∀ why, .truncated why ∈ q.tracing.events ↔ q.tracing.report.truncation? = some why) ∧
    (q.source ∉ q.graph → q.tracing.events = []) := by
  refine ⟨terminates_tracing (q := q.quiet), report_tracing q.quiet, ?_, ?_, q.events_episodes, ?_,
    q.truncated_mem_events, fun unknown => ?_⟩
  · rw [report_tracing, expanded_eq_explored]
  · rw [explored_eq, List.map_reverse, List.nodup_reverse]
    exact q.episodic_final.distinct
  · rw [accepted_events, report_tracing, routes_eq_explored]
  · rw [events_episodes, explored_unknown unknown, report_tracing, truncation_unknown unknown]
    rfl

end Query

end WordWalk
