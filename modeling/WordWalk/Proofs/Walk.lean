import Mathlib.Data.Set.Basic
import WordWalk.Search.Basic

/-! # Walks that a search may take

A walk of a query starts at the source, follows edges, and does not go on once it meets
the target. The routes with these properties are the trails that a search builds edge by
edge. Its states are the pairs of a last node and labels of such walks.
-/

namespace WordWalk

/-- Each label is carried by an edge between the nodes on its two sides. -/
structure Route.Follows (r : Route) (g : Graph) : Prop where
  nodes_length : r.nodes.length = r.labels.length + 1
  hasEdge : ∀ {i : Nat} {label : String}, r.labels[i]? = some label →
    ∃ a b, r.nodes[i]? = some a ∧ r.nodes[i + 1]? = some b ∧ g.hasEdge a b label = true

theorem Graph.hasEdge_iff {g : Graph} {a b label : String} :
    g.hasEdge a b label = true ↔ ⟨b, label⟩ ∈ g.edges a := List.contains_iff_mem

theorem Graph.mem_of_edge {g : Graph} {node : String} {e : Edge} (edge : e ∈ g.edges node) : node ∈ g := by
  by_contra outside
  rw [Graph.edges, Std.ExtTreeMap.getD_eq_fallback outside] at edge
  cases edge

theorem Route.follows_snoc {g : Graph} {nodes labels : List String} {b label : String} :
    Route.Follows ⟨nodes ++ [b], labels ++ [label]⟩ g ↔
      Route.Follows ⟨nodes, labels⟩ g ∧
        ∃ a, nodes.getLast? = some a ∧ g.hasEdge a b label = true := by
  constructor
  · intro h
    have length : nodes.length = labels.length + 1 := by simpa using h.nodes_length
    constructor
    · refine ⟨length, fun {i name} found => ?_⟩
      have inside : i < labels.length := (List.getElem?_eq_some_iff.mp found).1
      have before : (labels ++ [label])[i]? = some name := by
        rwa [List.getElem?_append_left inside]
      obtain ⟨x, y, hx, hy, edge⟩ := h.hasEdge before
      rw [List.getElem?_append_left (by omega)] at hx hy
      exact ⟨x, y, hx, hy, edge⟩
    · have last : (labels ++ [label])[labels.length]? = some label := by simp
      obtain ⟨x, y, hx, hy, edge⟩ := h.hasEdge last
      rw [List.getElem?_append_left (by omega)] at hx
      rw [List.getElem?_append_right (by omega), length, Nat.sub_self] at hy
      obtain rfl : b = y := by simpa using hy
      rw [List.getLast?_eq_getElem?, length, Nat.add_sub_cancel]
      exact ⟨x, hx, edge⟩
  · rintro ⟨h, a, last, edge⟩
    have length : nodes.length = labels.length + 1 := h.nodes_length
    refine ⟨by simp [length], fun {i name} found => ?_⟩
    by_cases inside : i < labels.length
    · rw [List.getElem?_append_left inside] at found
      obtain ⟨x, y, hx, hy, known⟩ := h.hasEdge found
      refine ⟨x, y, ?_, ?_, known⟩
      · rw [List.getElem?_append_left (by omega)]
        exact hx
      · rw [List.getElem?_append_left (by omega)]
        exact hy
    · have bound := (List.getElem?_eq_some_iff.mp found).1
      simp only [List.length_append, List.length_singleton] at bound
      obtain rfl : i = labels.length := by omega
      obtain rfl : label = name := by simpa using found
      rw [List.getLast?_eq_getElem?, length, Nat.add_sub_cancel] at last
      refine ⟨a, b, ?_, ?_, edge⟩
      · rw [List.getElem?_append_left (by omega)]
        exact last
      · rw [List.getElem?_append_right (by omega), length, Nat.sub_self]
        rfl

/-- The number of labels is within the greatest length, if there is one. -/
def Limits.Admits (limits : Limits) (length : Nat) : Prop :=
  ∀ limit, limits.maxLength = some limit → length ≤ limit

namespace Query

/-- A walk from the source that meets the target at its last node or not at all. -/
structure Walk (q : Query) (r : Route) : Prop where
  follows : r.Follows q.graph
  first : r.nodes.head? = some q.source
  avoids : q.target ∉ r.nodes.dropLast

/-- The last nodes and the labels of all walks within the greatest length. -/
def states (q : Query) : Set (String × List String) :=
  { s | ∃ r, q.Walk r ∧ r.nodes.getLast? = some s.1 ∧ r.labels = s.2 ∧ q.limits.Admits s.2.length }

/-- A trail that is built from the source, edge by edge, and that never leaves the target. -/
inductive Reaches (q : Query) : Trail → Prop
  | start : Reaches q (.start q.source)
  | extend {t e} (before : Reaches q t) (away : t.node ≠ q.target) (edge : e ∈ q.graph.edges t.node) :
      Reaches q (t.extend e)

theorem route_extend (t : Trail) (e : Edge) :
    (t.extend e).route = ⟨t.route.nodes ++ [e.target], t.route.labels ++ [e.label]⟩ := by
  simp [Trail.extend, Trail.route]

@[simp] theorem route_length (t : Trail) : t.route.labels.length = t.labels.length := List.length_reverse

@[simp] theorem route_getLast (t : Trail) : t.route.nodes.getLast? = some t.node := by
  simp [Trail.route]

theorem mem_route_nodes {t : Trail} {node : String} :
    node ∈ t.route.nodes ↔ node ∈ t.route.nodes.dropLast ∨ node = t.node := by
  simp [Trail.route]

theorem walk_extend {q : Query} {t : Trail} {e : Edge} :
    q.Walk (t.extend e).route ↔ q.Walk t.route ∧ t.node ≠ q.target ∧ e ∈ q.graph.edges t.node := by
  have head : (t.route.nodes ++ [e.target]).head? = t.route.nodes.head? := by
    have nonempty : t.route.nodes.head?.isSome := by simp [Trail.route]
    rw [List.head?_append, Option.or_of_isSome nonempty]
  rw [route_extend]
  constructor
  · rintro ⟨follows, first, avoids⟩
    obtain ⟨before, a, last, edge⟩ := Route.follows_snoc.mp follows
    obtain rfl : t.node = a := Option.some.inj ((route_getLast t).symm.trans last)
    rw [List.dropLast_concat, mem_route_nodes] at avoids
    rw [head] at first
    exact ⟨⟨before, first, fun met => avoids (.inl met)⟩, fun same => avoids (.inr same.symm),
      Graph.hasEdge_iff.mp edge⟩
  · rintro ⟨⟨follows, first, avoids⟩, away, edge⟩
    refine ⟨Route.follows_snoc.mpr ⟨follows, t.node, route_getLast t, Graph.hasEdge_iff.mpr edge⟩, ?_, ?_⟩
    · rw [head]
      exact first
    · rw [List.dropLast_concat, mem_route_nodes]
      exact fun met => met.elim avoids fun same => away same.symm

/-- The trails that a search can build are the walks of the query. -/
theorem reaches_iff_walk {q : Query} {t : Trail} : q.Reaches t ↔ q.Walk t.route := by
  constructor
  · intro h
    induction h with
    | start =>
        exact ⟨⟨rfl, by simp [Trail.start, Trail.route]⟩, rfl, by simp [Trail.start, Trail.route]⟩
    | extend _ away edge ih => exact walk_extend.mpr ⟨ih, away, edge⟩
  · obtain ⟨node, behind, labels⟩ := t
    intro h
    induction labels generalizing node behind with
    | nil =>
        have length := h.follows.nodes_length
        simp only [Trail.route, List.length_reverse, List.length_cons, List.length_nil] at length
        obtain rfl : behind = [] := List.length_eq_zero_iff.mp (by omega)
        obtain rfl : node = q.source := by simpa [Trail.route] using h.first
        exact .start
    | cons label labels ih =>
        have length := h.follows.nodes_length
        simp only [Trail.route, List.length_reverse, List.length_cons] at length
        match behind with
        | [] => simp at length
        | a :: behind =>
            obtain ⟨walk, away, edge⟩ :=
              walk_extend (t := ⟨a, behind, labels⟩) (e := ⟨node, label⟩) |>.mp h
            exact .extend (ih a behind walk) away edge

theorem exists_trail {q : Query} {r : Route} (h : q.Walk r) : ∃ t, q.Reaches t ∧ t.route = r := by
  obtain ⟨node, behind, reversed⟩ : ∃ node behind, r.nodes.reverse = node :: behind := by
    refine List.exists_cons_of_ne_nil fun none => ?_
    have length := h.follows.nodes_length
    rw [List.reverse_eq_nil_iff.mp none] at length
    simp at length
  have same : (⟨node, behind, r.labels.reverse⟩ : Trail).route = r := by
    simp [Trail.route, ← reversed]
  exact ⟨_, reaches_iff_walk.mpr (same.symm ▸ h), same⟩

theorem mem_states {q : Query} {s : String × List String} :
    s ∈ q.states ↔ ∃ t, q.Reaches t ∧ q.limits.Admits t.labels.length ∧
      (t.node, t.labels.reverse) = s := by
  constructor
  · rintro ⟨r, walk, last, labels, admitted⟩
    obtain ⟨t, reached, rfl⟩ := exists_trail walk
    have node : t.node = s.1 := Option.some.inj ((route_getLast t).symm.trans last)
    refine ⟨t, reached, ?_, Prod.ext node labels⟩
    rwa [← labels, Trail.route, List.length_reverse] at admitted
  · rintro ⟨t, reached, admitted, rfl⟩
    refine ⟨t.route, reaches_iff_walk.mp reached, route_getLast t, rfl, ?_⟩
    rwa [List.length_reverse]

namespace Reaches

theorem behind_mem {q : Query} {t : Trail} (h : q.Reaches t) : ∀ node ∈ t.behind, node ∈ q.graph := by
  induction h with
  | start => simp [Trail.start]
  | extend _ _ edge ih => exact List.forall_mem_cons.mpr ⟨Graph.mem_of_edge edge, ih⟩

/-- No walk leaves a source that is the target or that the graph does not have. -/
theorem eq_start {q : Query} {t : Trail} (h : q.Reaches t)
    (stuck : q.source = q.target ∨ q.source ∉ q.graph) : t = .start q.source := by
  induction h with
  | start => rfl
  | extend _ away edge ih =>
      subst ih
      rcases stuck with same | unknown
      · exact absurd same away
      · exact absurd (Graph.mem_of_edge edge) unknown

/-- Which walks there are depends on the graph and the two nodes alone. -/
theorem transfer {q r : Query} {t : Trail} (h : q.Reaches t) (graph : r.graph = q.graph)
    (source : r.source = q.source) (target : r.target = q.target) : r.Reaches t := by
  induction h with
  | start =>
      rw [← source]
      exact .start
  | extend _ away edge ih => exact .extend ih (target ▸ away) (graph ▸ edge)

end Reaches

end Query

end WordWalk
