import WordWalk.Proofs.GraphAdditions
import WordWalk.Proofs.SearchLimits

/-! # Search and reachability

Reachability knows nodes only, and a search knows nodes together with labels. A search meets no
other nodes than those that are reachable. Where every word is accepted and walks may be as
long as the graph has nodes, it finds a route to each of them: a walk that meets a node again
can be cut short, so a node that is reached at all is reached without a repetition.
-/

namespace WordWalk

namespace Graph

open Saturation (Leads)

variable {g : Graph} {node : String} {e : Edge}

def labels (g : Graph) : List String := g.toList.flatMap fun entry => entry.2.map Edge.label

theorem label_mem (edge : e ∈ g.edges node) : e.label ∈ g.labels := by
  rw [edges, Std.ExtTreeMap.getD_eq_getD_getElem?] at edge
  cases found : g.adjacency[node]? with
  | none => simp [found] at edge
  | some edges =>
      rw [found] at edge
      apply List.mem_flatMap.mpr
      exact ⟨(node, edges), Std.ExtTreeMap.mem_toList_iff_getElem?_eq_some.mpr found,
        List.mem_map_of_mem edge⟩

theorem ends_reachableFrom (g : Graph) (source : String) :
    Saturation.Ends g.freshSuccessors [source] ∅ (g.reachableFrom source) := by
  apply Saturation.ends_single (.fresh g.successors) g.adjacency.keys
  · intro a outside
    rw [successors, edges, Std.ExtTreeMap.getD_eq_fallback (mt Std.ExtTreeMap.mem_keys.mpr outside)]
    rfl
  · rw [sum_successors]
    exact Nat.lt_succ_self _

theorem mem_reachableFrom {source : String} :
    node ∈ g.reachableFrom source ↔ Leads g.successors source node :=
  (g.ends_reachableFrom source).mem_iff_leads (.fresh g.successors)

theorem leads_edge {source : String} (led : Leads g.successors source node) (edge : e ∈ g.edges node) :
    Leads g.successors source e.target :=
  led.tail (List.mem_map_of_mem edge)

/-- What leads from node to node is a walk written down. -/
theorem leads_iff_route {source : String} :
    Leads g.successors source node ↔
      ∃ r : Route, r.Follows g ∧ r.nodes.head? = some source ∧ r.nodes.getLast? = some node := by
  constructor
  · intro led
    induction led with
    | refl => exact ⟨⟨[source], []⟩, ⟨rfl, by simp⟩, rfl, rfl⟩
    | @tail a b _ last ih =>
        obtain ⟨⟨nodes, labels⟩, follows, first, there⟩ := ih
        obtain ⟨e, edge, rfl⟩ := List.mem_map.mp last
        have longer : Route.Follows ⟨nodes ++ [e.target], labels ++ [e.label]⟩ g :=
          Route.follows_snoc.mpr ⟨follows, a, there, hasEdge_iff.mpr edge⟩
        exact ⟨_, longer, by simp [first], List.getLast?_concat⟩
  · rintro ⟨r, follows, first, last⟩
    -- every node of the walk is led to, by induction on its place
    have passed : ∀ (i : Nat) (x : String), r.nodes[i]? = some x → Leads g.successors source x := by
      intro i
      induction i with
      | zero =>
          intro x found
          rw [← List.head?_eq_getElem?, first] at found
          rw [← Option.some.inj found]
          exact .refl
      | succ i ih =>
          intro x found
          have inside : i < r.labels.length := by
            have bound := (List.getElem?_eq_some_iff.mp found).1
            rw [follows.nodes_length] at bound
            omega
          obtain ⟨a, b, before, after, edge⟩ := follows.hasEdge (List.getElem?_eq_getElem inside)
          obtain rfl : x = b := Option.some.inj (found.symm.trans after)
          exact leads_edge (ih a before) (hasEdge_iff.mp edge)
    rw [List.getLast?_eq_getElem?] at last
    exact passed _ node last

/-- The loop comes to an end, and it has collected the nodes to which there is a walk from the
    source. This is the least set that the source belongs to and no edge leads out of. -/
theorem reachableFrom_exact (g : Graph) (source : String) :
    Saturation.Ends g.freshSuccessors [source] ∅ (g.reachableFrom source) ∧
    (∀ node, node ∈ g.reachableFrom source ↔
      ∃ r : Route, r.Follows g ∧ r.nodes.head? = some source ∧ r.nodes.getLast? = some node) ∧
    source ∈ g.reachableFrom source ∧
    (∀ node ∈ g.reachableFrom source, ∀ e ∈ g.edges node, e.target ∈ g.reachableFrom source) ∧
    (∀ nodes : Set String, source ∈ nodes → (∀ node ∈ nodes, ∀ e ∈ g.edges node, e.target ∈ nodes) →
      ∀ node ∈ g.reachableFrom source, node ∈ nodes) := by
  simp only [mem_reachableFrom]
  refine ⟨g.ends_reachableFrom source, fun node => leads_iff_route, .refl,
    fun node led e edge => leads_edge led edge, fun nodes begun closed node led => ?_⟩
  induction led with
  | refl => exact begun
  | tail _ last ih =>
      obtain ⟨e, edge, rfl⟩ := List.mem_map.mp last
      exact closed _ ih e edge

/-- A source that the graph does not have is all that it reaches. -/
example : ((ofEdges [("a", "b", "x"), ("b", "a", "y")]).reachableFrom "c").toList = ["c"] := by decide +kernel

end Graph

namespace Query

open Saturation (Leads)

variable {q : Query} {p p' : Progress}

namespace Reaches

theorem leads {t : Trail} (h : q.Reaches t) :
    ∀ node ∈ t.route.nodes, Leads q.graph.successors q.source node := by
  have passed : ∀ node ∈ t.node :: t.behind, Leads q.graph.successors q.source node := by
    induction h with
    | start =>
        intro node member
        rw [List.mem_singleton.mp member]
        exact .refl
    | @extend t e _ _ edge ih =>
        apply List.forall_mem_cons.mpr ⟨_, ih⟩
        exact (ih t.node List.mem_cons_self).tail (List.mem_map_of_mem edge)
  intro node member
  exact passed node (List.mem_reverse.mp member)

theorem labels_mem {t : Trail} (h : q.Reaches t) : ∀ label ∈ t.labels, label ∈ q.graph.labels := by
  induction h with
  | start => simp [Trail.start]
  | extend _ _ edge ih => exact List.forall_mem_cons.mpr ⟨Graph.label_mem edge, ih⟩

theorem upTo {t : Trail} (h : q.Reaches t) {a : String} (met : a ∈ t.node :: t.behind) :
    ∃ u, q.Reaches u ∧ u.node = a ∧ u.node :: u.behind <:+ t.node :: t.behind := by
  induction h with
  | start =>
      rw [List.mem_singleton.mp met]
      exact ⟨_, .start, rfl, List.suffix_refl _⟩
  | @extend t e before away edge ih =>
      cases met with
      | head => exact ⟨_, .extend before away edge, rfl, List.suffix_refl _⟩
      | tail _ met =>
          obtain ⟨u, reached, here, part⟩ := ih met
          exact ⟨u, reached, here, part.trans (List.suffix_cons _ _)⟩

end Reaches

/-- To every reachable node, or else to the target in front of it, there is a walk that meets no
    node twice. -/
theorem exists_simple {x : String} (led : Leads q.graph.successors q.source x) :
    ∃ t, q.Reaches t ∧ (t.node = x ∨ t.node = q.target) ∧ (t.node :: t.behind).Nodup := by
  induction led with
  | refl => exact ⟨_, .start, .inl rfl, List.nodup_singleton _⟩
  | @tail b c _ last ih =>
      obtain ⟨t, reached, here, once⟩ := ih
      by_cases there : t.node = q.target
      · exact ⟨t, reached, .inr there, once⟩
      obtain rfl : t.node = b := here.resolve_right there
      obtain ⟨e, edge, rfl⟩ := List.mem_map.mp last
      by_cases met : e.target ∈ t.node :: t.behind
      · obtain ⟨u, cut, back, part⟩ := reached.upTo met
        exact ⟨u, cut, .inl back, once.sublist part.sublist⟩
      · exact ⟨t.extend e, .extend reached there edge, .inl rfl, List.nodup_cons.mpr ⟨met, once⟩⟩

/-- All that is told as explored are walks of the query. -/
def Trodden (q : Query) (p : Progress) : Prop := ∀ r ∈ p.explored, ∃ t, q.Reaches t ∧ t.route = r

theorem Trodden.move (traced : q.traced = true) (sound : q.Sound p) (h : q.Trodden p)
    (m : q.Move p p') : q.Trodden p' := by
  obtain ⟨t, rest, next⟩ := List.exists_cons_of_ne_nil m.unsettled
  unfold Trodden
  rcases m.explored traced next with ⟨_, same, _⟩ | ⟨_, more, _⟩
  · rw [same]
    exact h
  · rw [more, List.forall_mem_cons]
    exact ⟨⟨t, (sound.top next).1, rfl⟩, h⟩

theorem trodden_after (traced : q.traced = true) (n : Nat) : q.Trodden (q.after n) := by
  have start : q.Trodden q.initial := fun _ member => by cases member
  exact after_induction_of q.sound_after start (Trodden.move traced) n

theorem route_leads {r : Route} (member : r ∈ q.report.routes) :
    q.target ∈ r.nodes ∧ ∀ node ∈ r.nodes, Leads q.graph.successors q.source node := by
  obtain ⟨t, rfl, reached, _, there, _⟩ := q.sound_final.routes r (mem_report_routes.mp member)
  exact ⟨mem_route_nodes.mpr (.inr there.symm), reached.leads⟩

theorem exists_route (apart : q.source ≠ q.target) (limits : q.limits = ⟨some q.graph.nodeCount, none⟩)
    (accepting : ∀ word ≠ [], (∀ label ∈ word, label ∈ q.graph.labels) → q.index.accepts word = true)
    (ends : q.Terminates) (led : Leads q.graph.successors q.source q.target) : q.report.routes ≠ [] := by
  obtain ⟨t, reached, here, once⟩ := exists_simple led
  have there : t.node = q.target := or_self_iff.mp here
  have moved : t ≠ .start q.source := by
    rintro rfl
    exact apart there
  have known : q.source ∈ q.graph := by
    by_contra unknown
    exact moved (reached.eq_start (.inr unknown))
  have labels : t.route.labels ≠ [] := by
    intro none
    cases reached with
    | start => exact moved rfl
    | extend => simp [route_extend] at none
  have accepted := accepting t.route.labels labels
    fun label member => reached.labels_mem label (List.mem_reverse.mp member)
  have running : q.Running q.final := by
    apply q.stage_final.resolve_right
    rintro ⟨_, stopped⟩
    simpa [limits] using stopped.bound
  have short : q.limits.Admits t.route.labels.length := by
    intro limit bound
    rw [limits] at bound
    rw [route_length, ← Option.some.inj bound]
    exact reached.length_le_nodeCount (List.nodup_cons.mp once).2
  obtain ⟨r, found, _⟩ := mem_words_report known running (final_settled ends)
    (mem_words.mpr ⟨accepted, t, reached, there, rfl⟩) (.inr short)
  exact List.ne_nil_of_mem found

/-- Whatever the index and the limits are, all nodes that a search meets are reachable from the
    source. If every word of labels of the graph is accepted, a search with walks up to the
    number of nodes ends, and it finds a route to another node exactly if that is reachable. -/
theorem search_reachable (q : Query) :
    (∀ n, ∀ r ∈ (q.tracing.after n).explored, ∀ node ∈ r.nodes,
      node ∈ q.graph.reachableFrom q.source) ∧
    (∀ r ∈ q.explored ++ q.report.routes, ∀ node ∈ r.nodes, node ∈ q.graph.reachableFrom q.source) ∧
    (q.source ≠ q.target → q.limits = ⟨some q.graph.nodeCount, none⟩ →
      (∀ word ≠ [], (∀ label ∈ word, label ∈ q.graph.labels) → q.index.accepts word = true) →
      q.Terminates ∧ (q.target ∈ q.graph.reachableFrom q.source ↔ q.report.routes ≠ [])) := by
  simp only [Graph.mem_reachableFrom]
  have explored : ∀ n, ∀ r ∈ (q.tracing.after n).explored, ∀ node ∈ r.nodes,
      Leads q.graph.successors q.source node := by
    intro n r member
    obtain ⟨t, reached, rfl⟩ := trodden_after (q := q.tracing) rfl n r member
    exact reached.leads
  refine ⟨explored, fun r member => ?_, fun apart limits accepting => ?_⟩
  · rcases List.mem_append.mp member with told | found
    · rw [explored_eq, final_eq_after, List.mem_reverse] at told
      exact explored _ r told
    · exact (route_leads found).2
  · have bound : q.limits.maxLength = some q.graph.nodeCount := by rw [limits]
    have ends := terminates_of_maxLength bound
    refine ⟨ends, exists_route apart limits accepting ends, fun found => ?_⟩
    obtain ⟨r, member⟩ := List.exists_mem_of_ne_nil _ found
    obtain ⟨there, led⟩ := route_leads member
    exact led q.target there

/-- A loop, and a way out of it, with a grammar of all words. -/
def roaming : Query where
  graph := .ofEdges [("s", "s", "a"), ("s", "m", "b"), ("m", "t", "a")]
  index := .ofGrammar ((((∅ : Grammar).addRule "S" ["S", "S"]).addRule "S" ["a"]).addRule "S" ["b"])
  source := "s"
  target := "t"
  limits := ⟨some 2, none⟩

theorem accepts_roaming {word : List String} (nonempty : word ≠ [])
    (known : ∀ label ∈ word, label ∈ roaming.graph.labels) : roaming.index.accepts word = true := by
  have single : ∀ label ∈ roaming.graph.labels,
      roaming.index.start ∈ (roaming.index.producersOfLabel? label).getD ∅ := by decide +kernel
  have double : roaming.index.start ∈
      (roaming.index.producersOfPair? roaming.index.start roaming.index.start).getD ∅ := by decide +kernel
  apply Index.accepts_iff_derives.mpr
  induction word with
  | nil => contradiction
  | cons label rest ih =>
      obtain ⟨first, later⟩ := List.forall_mem_cons.mp known
      cases rest with
      | nil => exact .label (single label first)
      | cons => exact .pair double (.label (single label first)) (ih (List.cons_ne_nil _ _) later)

theorem routes_roaming :
    (∀ word ≠ [], (∀ label ∈ word, label ∈ roaming.graph.labels) → roaming.index.accepts word = true) ∧
    roaming.Terminates ∧ roaming.report.routes ≠ [] := by
  have accepting : ∀ word ≠ [], (∀ label ∈ word, label ∈ roaming.graph.labels) →
      roaming.index.accepts word = true := fun _ => accepts_roaming
  have reachable : "t" ∈ roaming.graph.reachableFrom "s" := by decide +kernel
  obtain ⟨ends, found⟩ :=
    (search_reachable roaming).2.2 (by decide) (by decide +kernel) accepting
  exact ⟨accepting, ends, found.mp reachable⟩

end Query

end WordWalk
