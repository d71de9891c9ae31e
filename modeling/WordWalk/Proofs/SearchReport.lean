import WordWalk.Proofs.Recognition
import WordWalk.Proofs.SearchTermination

/-! # What a report tells about the walks

The routes of a report are accepted walks with labels of their own, whether or not the
search was held back. If the number of states was not used up, they have the labels of all
accepted walks, up to the greatest length in case some walk was cut there.
-/

namespace WordWalk

def Report.words (r : Report) : Set (List String) := { w | ∃ route ∈ r.routes, route.labels = w }

namespace Query

variable {q : Query}

/-- The accepted labels of all walks from the source to the target. -/
def words (q : Query) : Set (List String) :=
  { w | q.index.accepts w = true ∧ ∃ r, q.Walk r ∧ r.nodes.getLast? = some q.target ∧ r.labels = w }

theorem sound_final (q : Query) : q.Sound q.final := by
  rw [final_eq_after]
  exact q.sound_after _

theorem stage_final (q : Query) : q.Running q.final ∨ ∃ limit, q.Stopped q.final limit := by
  rw [final_eq_after]
  exact q.stage_after _

theorem mem_report_routes {r : Route} : r ∈ q.report.routes ↔ r ∈ q.final.routes := List.mem_reverse

theorem truncation_report (known : q.source ∈ q.graph) : q.report.truncation? = q.final.truncation := by
  simp only [Report.truncation?, report, reportOn, warnings, if_pos known]
  cases q.final.truncation <;> rfl

theorem truncation_unknown (unknown : q.source ∉ q.graph) : q.report.truncation? = none := by
  simp only [Report.truncation?, report, reportOn, warnings, if_neg unknown]
  rfl

theorem mem_words {w : List String} :
    w ∈ q.words ↔
      q.index.accepts w = true ∧ ∃ t, q.Reaches t ∧ t.node = q.target ∧ t.route.labels = w := by
  refine and_congr_right fun _ => ?_
  constructor
  · rintro ⟨r, walk, last, same⟩
    obtain ⟨t, reached, rfl⟩ := exists_trail walk
    exact ⟨t, reached, Option.some.inj ((route_getLast t).symm.trans last), same⟩
  · rintro ⟨t, reached, there, same⟩
    exact ⟨t.route, reaches_iff_walk.mp reached, there ▸ route_getLast t, same⟩

theorem words_report_subset : ∀ w ∈ q.report.words, w ∈ q.words ∧ q.limits.Admits w.length := by
  rintro _ ⟨r, member, rfl⟩
  obtain ⟨t, rfl, reached, admitted, there, accepted, _⟩ :=
    q.sound_final.routes r (mem_report_routes.mp member)
  exact ⟨mem_words.mpr ⟨accepted, t, reached, there, rfl⟩, (route_length t).symm ▸ admitted⟩

/-- Where no walk leaves the source there are no accepted words, since the empty one is not. -/
theorem not_mem_words (stuck : q.source = q.target ∨ q.source ∉ q.graph) (w : List String) :
    w ∉ q.words := by
  intro member
  obtain ⟨accepted, t, reached, _, rfl⟩ := mem_words.mp member
  obtain rfl := reached.eq_start stuck
  exact (Index.accepts_iff_derives.mp accepted).ne_nil rfl

/-- A route starts with the source and ends with the target, follows edges in between, does not
    pass through the target, and has accepted labels within the greatest length that no other
    route has. -/
theorem routes_sound (q : Query) :
    (∀ r ∈ q.report.routes,
      r.nodes.head? = some q.source ∧ r.nodes.getLast? = some q.target ∧ r.Follows q.graph ∧
      q.target ∉ r.nodes.dropLast ∧ q.index.accepts r.labels = true ∧ r.labels ≠ [] ∧
      ∀ limit, q.limits.maxLength = some limit → r.labels.length ≤ limit) ∧
    (q.report.routes.map Route.labels).Nodup ∧
    (q.source = q.target → q.report.routes = []) := by
  have sound := q.sound_final
  refine ⟨fun r member => ?_, ?_, fun same => ?_⟩
  · obtain ⟨t, rfl, reached, admitted, there, accepted, _⟩ :=
      sound.routes r (mem_report_routes.mp member)
    obtain ⟨follows, first, avoids⟩ := reaches_iff_walk.mp reached
    refine ⟨first, there ▸ route_getLast t, follows, avoids, accepted, ?_, fun limit bound => ?_⟩
    · exact (Index.accepts_iff_derives.mp accepted).ne_nil
    · exact (route_length t).trans_le (admitted limit bound)
  · have routes : q.report.routes.map Route.labels = (q.final.routes.map Route.labels).reverse :=
      List.map_reverse
    rw [routes, List.nodup_reverse]
    exact sound.distinct
  · apply List.eq_nil_iff_forall_not_mem.mpr
    intro r member
    exact not_mem_words (.inl same) _ (words_report_subset _ ⟨r, member, rfl⟩).1

theorem mem_words_report (known : q.source ∈ q.graph) (running : q.Running q.final)
    (settled : q.final.stack = []) {w : List String} (member : w ∈ q.words)
    (free : q.final.truncation = none ∨ q.limits.Admits w.length) : w ∈ q.report.words := by
  obtain ⟨accepted, t, reached, there, rfl⟩ := mem_words.mp member
  have recorded := running.seen_of_reaches settled known reached (route_length t ▸ free)
  obtain ⟨r, found, same⟩ := running.arrivals recorded there accepted
  exact ⟨r, mem_report_routes.mpr found, same⟩

/-- A search that ends within the number of states finds the labels of all accepted walks, or
    of all that are within the greatest length when it says that longer ones were left out. -/
theorem words_complete (ends : q.Terminates)
    (unspent : ∀ bound, q.report.truncation? ≠ some (.states bound)) :
    (q.report.isComplete = true ∧ q.report.words = q.words) ∨
    ∃ limit, q.report.truncation? = some (.length limit) ∧ q.limits.maxLength = some limit ∧
      q.report.words = { w ∈ q.words | w.length ≤ limit } := by
  have settled := final_settled ends
  by_cases known : q.source ∈ q.graph
  · simp only [Report.isComplete, truncation_report known] at unspent ⊢
    have running : q.Running q.final :=
      q.stage_final.resolve_right fun ⟨bound, stopped⟩ => unspent bound stopped.truncation
    cases told : q.final.truncation with
    | none =>
        refine .inl ⟨rfl, Set.ext fun w => ⟨?_, fun member => ?_⟩⟩
        · exact fun member => (words_report_subset w member).1
        · exact mem_words_report known running settled member (.inl told)
    | some why =>
        obtain ⟨_, _, _, _, limit, bound, _, rfl⟩ := running.truncation.mp told
        refine .inr ⟨limit, rfl, bound, Set.ext fun w => ⟨fun member => ?_, fun member => ?_⟩⟩
        · obtain ⟨inside, admitted⟩ := words_report_subset w member
          exact ⟨inside, admitted limit bound⟩
        · obtain ⟨inside, short⟩ := member
          refine mem_words_report known running settled inside (.inr fun other set => ?_)
          rwa [← Option.some.inj (bound.symm.trans set)]
  · refine .inl ⟨?_, Set.ext fun w => ⟨?_, fun member => ?_⟩⟩
    · simp only [Report.isComplete, truncation_unknown known, Option.isNone_none]
    · exact fun member => (words_report_subset w member).1
    · exact absurd member (not_mem_words (.inr known) w)

/-- Two loops, one before and one after the edges that lead from the first to the second. -/
def loops : Query where
  graph := .ofEdges [("s", "s", "a"), ("s", "t", "b"), ("s", "m", "b"), ("m", "m", "b"), ("m", "t", "b")]
  index := .ofGrammar .nested
  source := "s"
  target := "t"
  limits := ⟨some 4, none⟩

theorem words_loops :
    loops.Terminates ∧ { w ∈ loops.words | w.length ≤ 4 } = { ["a", "b"], ["a", "a", "b", "b"] } := by
  have ends : loops.Terminates := ⟨25, by decide +kernel⟩
  have told : loops.report.truncation? = some (.length 4) := by decide +kernel
  have routes : loops.report.routes.map Route.labels = [["a", "b"], ["a", "a", "b", "b"]] := by
    decide +kernel
  refine ⟨ends, ?_⟩
  rcases words_complete ends (by simp [told]) with ⟨complete, _⟩ | ⟨limit, cut, _, words⟩
  · simp [Report.isComplete, told] at complete
  · obtain rfl : 4 = limit := by simpa [told] using cut
    rw [← words]
    ext w
    simp [Report.words, ← List.mem_map, routes]

end Query

end WordWalk
