import WordWalk.Proofs.Preorder
import WordWalk.Proofs.SearchCircles

/-! # The order of exploration

Without a bound on the states, a search explores its walks in preorder and leaves out those
whose state occurred before. The longest walks are on top of the stack, so when a walk
with an old state turns up, everything that continues the state was looked at already, and
dropping the walk leaves out nothing but old states.
-/

namespace WordWalk.Query

variable {q : Query} {p p' : Progress} {depth : Nat}

/-- No walk within the limits is longer than `depth`, and no shorter one is held back. -/
structure Deep (q : Query) (depth : Nat) : Prop where
  short : ∀ t, q.Reaches t → q.limits.Admits t.labels.length → t.labels.length ≤ depth
  free : ∀ limit, q.limits.maxLength = some limit → depth ≤ limit

namespace Deep

theorem of_maxLength {limit : Nat} (bound : q.limits.maxLength = some limit) : q.Deep limit where
  short _ _ admitted := admitted limit bound
  free _ set := Nat.le_of_eq (Option.some.inj (bound.symm.trans set))

theorem of_length (noLength : q.limits.maxLength = none)
    (short : ∀ t, q.Reaches t → t.labels.length ≤ depth) : q.Deep depth where
  short t reached _ := short t reached
  free limit set := by simp [noLength] at set

theorem terminates (h : q.Deep depth) : q.Terminates := terminates_of_depth h.short

theorem admits {t : Trail} (h : q.Deep depth) (reached : q.Reaches t) :
    t.labels.length ≤ depth ↔ q.limits.Admits t.labels.length :=
  ⟨fun short limit set => Nat.le_trans short (h.free limit set), h.short t reached⟩

end Deep

/-- The walks of up to `depth` labels in preorder. -/
def listing (q : Query) (depth : Nat) : List Route :=
  (q.graph.preorder q.target depth (.start q.source)).map Trail.route

/-- All walks in preorder. If there is no greatest length and no walk circles, then no walk has
    more labels than there are nodes. -/
def walks (q : Query) : List Route := q.listing (q.limits.maxLength.getD q.graph.nodeCount)

theorem mem_listing (deep : q.Deep depth) {r : Route} :
    r ∈ q.listing depth ↔ q.Walk r ∧ q.limits.Admits r.labels.length := by
  rw [listing, List.mem_map]
  constructor
  · rintro ⟨t, member, rfl⟩
    obtain ⟨reached, short⟩ := mem_preorder_start.mp member
    refine ⟨reaches_iff_walk.mp reached, ?_⟩
    rw [route_length]
    exact (deep.admits reached).mp short
  · rintro ⟨walk, admitted⟩
    obtain ⟨t, reached, rfl⟩ := exists_trail walk
    rw [route_length] at admitted
    exact ⟨t, mem_preorder_start.mpr ⟨reached, (deep.admits reached).mpr admitted⟩, rfl⟩

/-- The walks on the stack with all that continues them, in preorder. -/
def ahead (q : Query) (depth : Nat) (p : Progress) : List Trail :=
  p.stack.flatMap fun t => q.graph.preorder q.target (depth - t.labels.length) t

theorem ahead_cons {t : Trail} {rest : List Trail} (next : p.stack = t :: rest) :
    q.ahead depth p = q.graph.preorder q.target (depth - t.labels.length) t ++
      q.ahead depth { p with stack := rest } := by
  rw [ahead, next, List.flatMap_cons]
  rfl

theorem ahead_extend {t : Trail} {rest : List Trail} (away : t.node ≠ q.target)
    (room : q.graph.edges t.node ≠ [] → t.labels.length < depth) :
    q.ahead depth { p with stack := t :: rest } =
      t :: q.ahead depth { p with stack := ((q.graph.edges t.node).map t.extend).reverse ++ rest } := by
  simp only [ahead, List.flatMap_cons, List.flatMap_append]
  rw [← List.cons_append]
  congr 1
  by_cases dead : q.graph.edges t.node = []
  · rw [Graph.preorder_dead dead, dead]
    rfl
  · obtain ⟨left, same⟩ : ∃ left, depth - t.labels.length = left + 1 :=
      Nat.exists_eq_add_one.mpr (Nat.sub_pos_of_lt (room dead))
    rw [same, Graph.preorder_extend away]
    congr 1
    apply List.flatMap_congr
    intro u member
    obtain ⟨e, _, rfl⟩ := List.mem_map.mp (List.mem_reverse.mp member)
    have child : depth - (t.extend e).labels.length = left := by
      simp only [Trail.extend, List.length_cons]
      omega
    rw [child]

/-- A walk with a new state is the first of all that lie ahead. -/
theorem Move.ahead (deep : q.Deep depth) (unset : q.limits.maxStates = none) (sound : q.Sound p)
    {t : Trail} {rest} (next : p.stack = t :: rest) (fresh : t.state ∉ p.seen) (m : q.Move p p') :
    q.ahead depth p = t :: q.ahead depth p' := by
  cases m with
  | drop next' old =>
      obtain ⟨rfl, rfl⟩ := List.cons.inj (next.symm.trans next')
      exact absurd old fresh
  | stop _ _ bound _ => simp [unset] at bound
  | arrive next' _ _ there =>
      obtain ⟨rfl, rfl⟩ := List.cons.inj (next.symm.trans next')
      rw [ahead_cons next, Graph.preorder_there there]
      rfl
  | @cut _ _ limit next' _ _ _ _ bound long =>
      obtain ⟨rfl, rfl⟩ := List.cons.inj (next.symm.trans next')
      have none : depth - t.labels.length = 0 := Nat.sub_eq_zero_of_le ((deep.free limit bound).trans long)
      rw [ahead_cons next, none]
      rfl
  | follow next' _ _ away short =>
      obtain ⟨rfl, rfl⟩ := List.cons.inj (next.symm.trans next')
      obtain ⟨reached, _⟩ := sound.top next
      have room : q.graph.edges t.node ≠ [] → t.labels.length < depth := by
        intro alive
        obtain ⟨e, edge⟩ := List.exists_mem_of_ne_nil _ alive
        exact deep.short (t.extend e) (.extend reached away edge) (short.resolve_left alive)
      have shape : q.ahead depth p = q.ahead depth { p with stack := t :: rest } := by
        rw [ahead, next, ahead]
      rw [shape, ahead_extend away room]
      rfl

/-- The longest walks are on top of the stack. -/
def Descends (p : Progress) : Prop := p.stack.Pairwise fun t u => u.labels.length ≤ t.labels.length

theorem Descends.move (h : Descends p) (m : q.Move p p') : Descends p' := by
  cases m with
  | stop => exact List.Pairwise.nil
  | drop next | arrive next | cut next =>
      rw [Descends, next] at h
      exact h.tail
  | @follow t rest next =>
      rw [Descends, next, List.pairwise_cons] at h
      obtain ⟨top, below⟩ := h
      refine List.pairwise_append.mpr ⟨?_, below, ?_⟩
      · apply List.pairwise_of_forall_mem_list
        intro u hu v hv
        obtain ⟨e, _, rfl⟩ := List.mem_map.mp (List.mem_reverse.mp hu)
        obtain ⟨f, _, rfl⟩ := List.mem_map.mp (List.mem_reverse.mp hv)
        exact Nat.le_refl _
      · intro u hu v hv
        obtain ⟨e, _, rfl⟩ := List.mem_map.mp (List.mem_reverse.mp hu)
        exact Nat.le_succ_of_le (top v hv)

/-- Below a recorded state that is as long as the walk on top, everything is recorded. -/
theorem Running.seen_of_mem_preorder (h : q.Running p) {top : Nat}
    (low : ∀ t ∈ p.stack, t.labels.length ≤ top) {n : Nat} {t u : Trail} (old : t.state ∈ p.seen)
    (long : top ≤ t.labels.length)
    (free : ∀ limit, q.limits.maxLength = some limit → t.labels.length + n ≤ limit)
    (member : u ∈ q.graph.preorder q.target n t) : u.state ∈ p.seen := by
  induction n generalizing t with
  | zero =>
      obtain rfl := List.mem_singleton.mp member
      exact old
  | succ n ih =>
      rcases Graph.mem_preorder_succ.mp member with rfl | ⟨away, e, edge, later⟩
      · exact old
      have waiting : Pending p (t.extend e).state := by
        refine h.successors old away (fun limit bound => ?_) edge
        have := free limit bound
        omega
      -- the continuation is longer than every walk on the stack, so it does not wait there
      have recorded : (t.extend e).state ∈ p.seen := by
        refine waiting.resolve_right ?_
        rintro ⟨w, onStack, same⟩
        have length : w.labels.length = t.labels.length + 1 :=
          congrArg List.length (Trail.state_eq_iff.mp same).2
        have := low w onStack
        omega
      apply ih recorded _ _ later
      · exact Nat.le_succ_of_le long
      · intro limit bound
        have := free limit bound
        simp only [Trail.extend, List.length_cons]
        omega

/-- What was explored and what lies ahead make up the first walks of the preorder. -/
structure Ordered (q : Query) (depth : Nat) (p : Progress) : Prop where
  sound : q.Sound p
  running : q.Running p
  told : q.Told p
  descends : Descends p
  listed : Route.sift ((q.ahead depth p).map Trail.route) p.explored = Route.firsts (q.listing depth)

theorem ordered_initial (known : q.source ∈ q.graph) : q.Ordered depth q.initial where
  sound := q.sound_initial
  running := .initial q
  told := q.told_initial
  descends := by simp [Descends, initial, known]
  listed := by
    have start : q.initial.stack = [.start q.source] := by simp [initial, known]
    have walks : q.ahead depth q.initial = q.graph.preorder q.target depth (.start q.source) := by
      rw [ahead, start, List.flatMap_singleton]
      rfl
    rw [walks]
    rfl

theorem Ordered.move (deep : q.Deep depth) (unset : q.limits.maxStates = none)
    (traced : q.traced = true) (h : q.Ordered depth p) (m : q.Move p p') : q.Ordered depth p' := by
  obtain ⟨t, rest, next⟩ := List.exists_cons_of_ne_nil m.unsettled
  have running : q.Running p' := by
    refine (h.running.move h.sound m).resolve_right ?_
    rintro ⟨limit, stopped⟩
    have bound := stopped.bound
    simp [unset] at bound
  refine ⟨h.sound.move m, running, h.told.move traced m, h.descends.move m, ?_⟩
  rw [← h.listed]
  by_cases old : t.state ∈ p.seen
  · obtain rfl : { p with stack := rest } = p' := (Move.drop next old).step_eq.symm.trans m.step_eq
    have low : ∀ u ∈ p.stack, u.labels.length ≤ t.labels.length := by
      have sorted := h.descends
      rw [Descends, next] at sorted
      rw [next, List.forall_mem_cons]
      exact ⟨Nat.le_refl _, (List.pairwise_cons.mp sorted).1⟩
    rw [ahead_cons next, List.map_append]
    refine (Route.sift_append_old ?_ _).symm
    intro r member
    obtain ⟨u, below, rfl⟩ := List.mem_map.mp member
    obtain ⟨reached, admitted⟩ := h.sound.top next
    have short := deep.short t reached admitted
    apply (h.told.seen u).mp
    apply h.running.seen_of_mem_preorder low old (Nat.le_refl _) _ below
    intro limit bound
    have := deep.free limit bound
    omega
  · rcases m.explored traced next with ⟨held, _⟩ | ⟨_, explored, _, _⟩
    · exact absurd unset (held.resolve_left old)
    · rw [m.ahead deep unset h.sound next old, List.map_cons, explored]
      exact (Route.sift_new (fun known => old ((h.told.seen t).mpr known)) _).symm

theorem ordered_after (deep : q.Deep depth) (unset : q.limits.maxStates = none)
    (traced : q.traced = true) (known : q.source ∈ q.graph) (n : Nat) : q.Ordered depth (q.after n) :=
  after_induction (ordered_initial known) (Ordered.move deep unset traced) n

theorem explored_eq_firsts (deep : q.Deep depth) (unset : q.limits.maxStates = none)
    (known : q.source ∈ q.graph) : q.explored = Route.firsts (q.listing depth) := by
  have ends : q.tracing.Terminates := terminates_tracing.mpr deep.terminates
  have deep : q.tracing.Deep depth :=
    ⟨fun t reached => deep.short t (reached.transfer rfl rfl rfl), deep.free⟩
  have ordered : q.tracing.Ordered depth q.tracing.final := by
    rw [final_eq_after]
    exact ordered_after deep unset rfl known _
  have nothing : q.tracing.ahead depth q.tracing.final = [] := by
    rw [ahead, final_settled ends, List.flatMap_nil]
  calc q.explored
    _ = q.tracing.final.explored.reverse := q.explored_eq
    _ = Route.sift [] q.tracing.final.explored := rfl
    _ = Route.firsts (q.listing depth) := by
      have listed := ordered.listed
      rw [nothing] at listed
      exact listed

theorem find?_labels_of_mem_firsts {r : Route} {routes : List Route} (member : r ∈ Route.firsts routes)
    (there : r.nodes.getLast? = some q.target) :
    routes.find? (fun w => w.nodes.getLast? == some q.target && w.labels == r.labels) = some r := by
  have same : (fun w : Route => w.nodes.getLast? == some q.target && w.labels == r.labels) =
      fun w => w.state == r.state := by
    funext w
    rw [Bool.eq_iff_iff]
    simp [Route.state, there]
  rw [same]
  exact Route.find?_of_mem_firsts member

theorem deep_walks (finite : q.limits.maxLength ≠ none ∨ ¬ q.Circles) :
    q.Deep (q.limits.maxLength.getD q.graph.nodeCount) := by
  cases bound : q.limits.maxLength with
  | some limit => exact .of_maxLength bound
  | none =>
      have straight : ¬ q.Circles := finite.resolve_left (fun set => set bound)
      exact .of_length bound fun t reached => reached.length_le_of_straight straight

/-- A search without a bound on the states, over walks that are bounded in length, explores the
    walks of the recursive listing whose state does not occur earlier in it, and reports
    those of them that are accepted arrivals. So of the walks to the target with the same
    labels the first one is reported. -/
theorem explored_in_preorder (known : q.source ∈ q.graph) (unset : q.limits.maxStates = none)
    (finite : q.limits.maxLength ≠ none ∨ ¬ q.Circles) :
    q.Terminates ∧
    (∀ r, r ∈ q.walks ↔ q.Walk r ∧ q.limits.Admits r.labels.length) ∧
    q.explored = Route.firsts q.walks ∧
    q.report.expanded = q.explored.length ∧
    q.report.routes = q.explored.filter q.reports ∧
    ∀ r ∈ q.report.routes,
      q.walks.find? (fun w => w.nodes.getLast? == some q.target && w.labels == r.labels) = some r := by
  have deep := deep_walks finite
  have order : q.explored = Route.firsts q.walks := explored_eq_firsts deep unset known
  refine ⟨deep.terminates, fun r => mem_listing deep, order, q.expanded_eq_explored,
    q.routes_eq_explored, ?_⟩
  intro r reported
  rw [routes_eq_explored, order, List.mem_filter, reports, Bool.and_eq_true, beq_iff_eq] at reported
  obtain ⟨first, there, _⟩ := reported
  exact find?_labels_of_mem_firsts first there

/-- Two ways from the source to the target that have the same labels, and a way back. -/
def diamond : Query where
  graph := .ofEdges [("s", "x", "a"), ("s", "y", "a"), ("x", "t", "b"), ("y", "t", "b"),
    ("t", "s", "a")]
  index := .ofGrammar .nested
  source := "s"
  target := "t"
  limits := .unbounded

theorem routes_diamond :
    diamond.source ∈ diamond.graph ∧ ¬ diamond.Circles ∧
    diamond.walks.length = 5 ∧ diamond.explored.length = 4 ∧
    diamond.report.routes = [⟨["s", "y", "t"], ["a", "b"]⟩] := by
  have known : diamond.source ∈ diamond.graph := by decide +kernel
  have straight : ¬ diamond.Circles := by
    have ends : diamond.Terminates := ⟨5, by decide +kernel⟩
    exact straight_of_terminates ends known rfl rfl
  obtain ⟨_, _, order, _, routes, _⟩ := explored_in_preorder known rfl (.inr straight)
  refine ⟨known, straight, by decide +kernel, ?_, ?_⟩
  · rw [order]
    decide +kernel
  · rw [routes, order]
    decide +kernel

end WordWalk.Query
