import WordWalk.Proofs.Reachability
import WordWalk.Proofs.SearchEpisodes

/-! # What a search depends on

Of the graph a search takes notice of whether the source has an entry, and of the edges of the
nodes away from the target that its walks come to. Of the index it takes the verdicts on
arrivals, and these decide which routes are reported and nothing else.
-/

namespace WordWalk

namespace Graph

def setEdges (g : Graph) (node : String) (edges : List Edge) : Graph :=
  ⟨g.adjacency.insert node edges⟩

theorem edges_setEdges_of_ne {g : Graph} {node other : String} {edges : List Edge}
    (apart : other ≠ node) : (g.setEdges node edges).edges other = g.edges other := by
  rw [Graph.edges, setEdges, Std.ExtTreeMap.getD_insert, if_neg]
  · rfl
  · exact fun same => apart (Std.LawfulEqCmp.compare_eq_iff_eq.mp same).symm

theorem mem_setEdges {g : Graph} {node other : String} {edges : List Edge} :
    other ∈ g.setEdges node edges ↔ node = other ∨ other ∈ g :=
  Std.ExtTreeMap.mem_insert.trans (or_congr_left Std.LawfulEqCmp.compare_eq_iff_eq)

end Graph

namespace Query

variable {q : Query} {p p' : Progress}

/-- Some walk comes to the node and may go on from there. -/
def Enters (q : Query) (node : String) : Prop :=
  node ≠ q.target ∧ ∃ r, q.Walk r ∧ r.nodes.getLast? = some node

theorem Reaches.enters {t : Trail} (h : q.Reaches t) (away : t.node ≠ q.target) : q.Enters t.node :=
  ⟨away, t.route, reaches_iff_walk.mp h, route_getLast t⟩

theorem Enters.of_tracing {node : String} (h : q.tracing.Enters node) : q.Enters node := by
  obtain ⟨away, r, walk, last⟩ := h
  exact ⟨away, r, ⟨walk.follows, walk.first, walk.avoids⟩, last⟩

def withGraph (q : Query) (g : Graph) : Query := { q with graph := g }

def withIndex (q : Query) (index : Index) : Query := { q with index }

/-- Neither search ends, or both do, with one report and one sequence of events. -/
structure Agrees (q r : Query) : Prop where
  ends : q.Terminates ↔ r.Terminates
  report : q.Terminates → q.report = r.report
  events : q.Terminates → q.tracing.events = r.tracing.events

section Graph

variable {g : Graph}

theorem Move.withGraph (sound : q.Sound p)
    (same : ∀ node, q.Enters node → g.edges node = q.graph.edges node) (m : q.Move p p') :
    (q.withGraph g).Move p p' := by
  have edges : ∀ {t rest}, p.stack = t :: rest → t.node ≠ q.target →
      g.edges t.node = q.graph.edges t.node :=
    fun next away => same _ ((sound.top next).1.enters away)
  cases m with
  | drop next old => exact .drop next old
  | stop next fresh bound spent => exact .stop (q := q.withGraph g) next fresh bound spent
  | arrive next fresh room there => exact .arrive (q := q.withGraph g) next fresh room there
  | cut next fresh room away alive bound long =>
      rw [← edges next away] at alive
      exact .cut (q := q.withGraph g) next fresh room away alive bound long
  | follow next fresh room away short =>
      rw [← edges next away] at short ⊢
      exact .follow (q := q.withGraph g) next fresh room away short

theorem after_withGraph (known : q.source ∈ q.graph ↔ q.source ∈ g)
    (same : ∀ node, q.Enters node → g.edges node = q.graph.edges node) (n : Nat) :
    (q.withGraph g).after n = q.after n := by
  have start : (q.withGraph g).initial = q.initial := by
    simp only [initial, known]
    rfl
  apply after_simulated id start (fun _ => rfl)
  intro k _ p' m
  exact m.withGraph (q.sound_after k) same

theorem final_withGraph (known : q.source ∈ q.graph ↔ q.source ∈ g)
    (same : ∀ node, q.Enters node → g.edges node = q.graph.edges node) (ends : q.Terminates) :
    (q.withGraph g).final = q.final := by
  obtain ⟨n, settled⟩ := ends
  replace settled := List.isEmpty_iff.mp settled
  have step := after_withGraph known same n
  rw [final_of_settled settled, final_of_settled (step ▸ settled), step]

theorem agrees_withGraph (known : q.source ∈ q.graph ↔ q.source ∈ g)
    (same : ∀ node, q.Enters node → g.edges node = q.graph.edges node) : q.Agrees (q.withGraph g) where
  ends := by simp only [Terminates, after_withGraph known same]
  report := by
    intro ends
    have final := final_withGraph known same ends
    simp only [report, reportOn, warnings, final, known]
    rfl
  events := by
    intro ends
    have traced : ∀ node, q.tracing.Enters node → g.edges node = q.graph.edges node :=
      fun node entered => same node entered.of_tracing
    have final := final_withGraph (q := q.tracing) known traced (terminates_tracing.mpr ends)
    exact congrArg eventsOf final.symm

end Graph

/-- A search is the same on every graph that has an entry for the source if this one has, and
    that has the same edges at all nodes that the search enters. So the edges of the target,
    and of nodes that are only met behind it, do not matter, and neither does an entry
    without edges for a node other than the source. -/
theorem depends_on_entered (q : Query) :
    (∀ g, (q.source ∈ q.graph ↔ q.source ∈ g) →
      (∀ node, q.Enters node → g.edges node = q.graph.edges node) → q.Agrees (q.withGraph g)) ∧
    (∀ node edges, ¬ q.Enters node → (node = q.source → q.source ∈ q.graph) →
      q.Agrees (q.withGraph (q.graph.setEdges node edges))) ∧
    (∀ node, node ≠ q.source → q.Agrees (q.withGraph (q.graph.addNode node))) := by
  refine ⟨fun g known same => agrees_withGraph known same, fun node edges outside entry => ?_,
    fun node apart => ?_⟩
  · apply agrees_withGraph
    · rw [Graph.mem_setEdges]
      exact ⟨.inr, fun known => known.elim entry id⟩
    · intro other entered
      apply Graph.edges_setEdges_of_ne
      rintro rfl
      exact outside entered
  · apply agrees_withGraph
    · rw [Graph.mem_addNode, or_iff_right apart]
    · exact fun other _ => q.graph.edges_addNode node other

theorem agrees_loops :
    ¬ loops.Enters "t" ∧ loops.Terminates ∧
    (loops.withGraph (loops.graph.setEdges "t" [⟨"s", "a"⟩])).report.routes.map Route.labels =
      [["a", "b"], ["a", "a", "b", "b"]] ∧
    (loops.withGraph (loops.graph.addNode "t")).report.expanded = 25 := by
  have outside : ¬ loops.Enters "t" := fun entered => entered.1 rfl
  have ends : loops.Terminates := ⟨25, by decide +kernel⟩
  obtain ⟨_, edges, entry⟩ := depends_on_entered loops
  refine ⟨outside, ends, ?_, ?_⟩
  · rw [← (edges "t" [⟨"s", "a"⟩] outside (by decide)).report ends]
    decide +kernel
  · rw [← (entry "t" (by decide)).report ends]
    decide +kernel

section Index

variable {I J : Index}

theorem explored_arrived (traced : q.traced = true) (t : Trail) (events : List SearchEvent) :
    (q.told (q.arrivalEvents t) (q.told [.exploring t.route] events)).filterMap SearchEvent.explored? =
      t.route :: events.filterMap SearchEvent.explored? := by
  rw [explored_told traced, explored_arrivalEvents, explored_told traced]
  rfl

/-- Both searches have looked at the same walks and will look at the same ones. -/
structure Abreast (p p' : Progress) : Prop where
  stack : p.stack = p'.stack
  seen : p.seen = p'.seen
  truncation : p.truncation = p'.truncation
  explored : p.explored = p'.explored

/-- Whatever one of the searches does next, the other one does with the verdicts of its index. -/
theorem Abreast.move {p₁ : Progress} (h : Abreast p p') (m : (q.withIndex I).tracing.Move p p₁) :
    ∃ p₁', (q.withIndex J).tracing.Move p' p₁' ∧ Abreast p₁ p₁' := by
  obtain ⟨stack, seen, truncation, explored⟩ := h
  cases m with
  | drop next old =>
      exact ⟨_, .drop (stack ▸ next) (seen ▸ old), rfl, seen, truncation, explored⟩
  | stop next fresh bound spent =>
      exact ⟨_, .stop (q := (q.withIndex J).tracing) (stack ▸ next) (seen ▸ fresh) bound (seen ▸ spent),
        rfl, seen, rfl, explored⟩
  | @arrive t _ next fresh room there =>
      refine ⟨_, .arrive (q := (q.withIndex J).tracing) (stack ▸ next) (seen ▸ fresh) (seen ▸ room) there,
        rfl, seen ▸ rfl, truncation, ?_⟩
      calc _ = t.route :: p.explored := explored_arrived (q := (q.withIndex I).tracing) rfl t _
        _ = t.route :: p'.explored := congrArg _ explored
        _ = _ := (explored_arrived (q := (q.withIndex J).tracing) rfl t _).symm
  | @cut t _ _ next fresh room away alive bound long =>
      refine ⟨_, .cut (q := (q.withIndex J).tracing) (stack ▸ next) (seen ▸ fresh) (seen ▸ room) away
        alive bound long, rfl, seen ▸ rfl, truncation ▸ rfl, ?_⟩
      calc _ = t.route :: p.explored := explored_told (q := (q.withIndex I).tracing) rfl [.exploring t.route] _
        _ = t.route :: p'.explored := congrArg _ explored
        _ = _ := (explored_told (q := (q.withIndex J).tracing) rfl [.exploring t.route] _).symm
  | @follow t _ next fresh room away short =>
      refine ⟨_, .follow (q := (q.withIndex J).tracing) (stack ▸ next) (seen ▸ fresh) (seen ▸ room) away short,
        rfl, seen ▸ rfl, truncation, ?_⟩
      calc _ = t.route :: p.explored := explored_told (q := (q.withIndex I).tracing) rfl [.exploring t.route] _
        _ = t.route :: p'.explored := congrArg _ explored
        _ = _ := (explored_told (q := (q.withIndex J).tracing) rfl [.exploring t.route] _).symm

theorem abreast_after (q : Query) (I J : Index) (n : Nat) :
    Abreast ((q.withIndex I).tracing.after n) ((q.withIndex J).tracing.after n) := by
  induction n with
  | zero => exact ⟨rfl, rfl, rfl, rfl⟩
  | succ n ih =>
      rw [after, after]
      cases next : ((q.withIndex I).tracing.after n).stack with
      | nil =>
          rw [step_settled next, step_settled (ih.stack ▸ next)]
          exact ih
      | cons =>
          obtain ⟨_, move, abreast⟩ := ih.move (J := J) (step_move next)
          rw [move.step_eq]
          exact abreast

theorem abreast_final (q : Query) (I J : Index) :
    Abreast (q.withIndex I).tracing.final (q.withIndex J).tracing.final := by
  have rounds : (q.withIndex I).tracing.rounds = (q.withIndex J).tracing.rounds := rfl
  rw [final_eq_after, final_eq_after, rounds]
  exact q.abreast_after I J _

theorem terminates_withIndex (q : Query) (I J : Index) :
    (q.withIndex I).Terminates ↔ (q.withIndex J).Terminates := by
  rw [← terminates_tracing, ← terminates_tracing (q := q.withIndex J)]
  simp only [Terminates, Progress.isSettled]
  exact exists_congr fun n => by rw [(q.abreast_after I J n).stack]

theorem explored_withIndex (q : Query) (I J : Index) :
    (q.withIndex I).explored = (q.withIndex J).explored := by
  rw [explored_eq, explored_eq, (q.abreast_final I J).explored]

theorem warnings_withIndex (q : Query) (I J : Index) :
    (q.withIndex I).report.warnings = (q.withIndex J).report.warnings := by
  rw [← report_tracing, ← report_tracing (q.withIndex J)]
  simp only [report, reportOn, warnings, (q.abreast_final I J).truncation]
  rfl

theorem routes_withIndex (within : ∀ word, I.accepts word = true → J.accepts word = true) :
    (q.withIndex I).report.routes =
      (q.withIndex J).report.routes.filter fun r => I.accepts r.labels := by
  rw [routes_eq_explored, routes_eq_explored, explored_withIndex q I J, List.filter_filter]
  apply List.filter_congr
  intro r _
  change (_ && I.accepts r.labels) = (I.accepts r.labels && (_ && J.accepts r.labels))
  cases accepted : I.accepts r.labels with
  | false => simp
  | true => simp [within _ accepted, withIndex]

/-- Searches that differ in the index alone explore the same walks, both end or both do not, and
    leave out the same. If one index accepts whatever the other one accepts, the routes under
    the narrower index are those under the wider one that it accepts, in the same order. -/
theorem index_selects (q : Query) (I J : Index) :
    ((q.withIndex I).Terminates ↔ (q.withIndex J).Terminates) ∧
    (q.withIndex I).explored = (q.withIndex J).explored ∧
    (q.withIndex I).report.expanded = (q.withIndex J).report.expanded ∧
    (q.withIndex I).report.warnings = (q.withIndex J).report.warnings ∧
    ((∀ word, I.accepts word = true → J.accepts word = true) →
      (q.withIndex I).report.routes.Sublist (q.withIndex J).report.routes ∧
      (q.withIndex I).report.routes =
        (q.withIndex J).report.routes.filter fun r => I.accepts r.labels) := by
  have explored := q.explored_withIndex I J
  refine ⟨q.terminates_withIndex I J, explored, ?_, q.warnings_withIndex I J, fun within => ?_⟩
  · rw [expanded_eq_explored, expanded_eq_explored, explored]
  · have routes := routes_withIndex (q := q) within
    exact ⟨routes ▸ List.filter_sublist, routes⟩

theorem select_loops :
    (∀ word, loops.index.accepts word = true → roaming.index.accepts word = true) ∧
    (loops.withIndex roaming.index).report.routes.length = 10 ∧
    loops.report.routes =
      (loops.withIndex roaming.index).report.routes.filter fun r => loops.index.accepts r.labels := by
  have within : ∀ word, loops.index.accepts word = true → roaming.index.accepts word = true := by
    intro word accepted
    have derives := Index.accepts_iff_derives.mp accepted
    have labels : ∀ label ∈ loops.index.terminals, label ∈ roaming.graph.labels := by decide +kernel
    exact accepts_roaming derives.ne_nil fun label member => labels label (derives.label_mem member)
  obtain ⟨_, _, _, _, routes⟩ := loops.index_selects loops.index roaming.index
  exact ⟨within, by decide +kernel, (routes within).2⟩

end Index

end Query

end WordWalk
