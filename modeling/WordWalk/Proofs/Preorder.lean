import WordWalk.Proofs.SearchTrace

/-! # The tree of walks in preorder

The walks of a query are a tree: each is continued by the edges at its last node. `preorder`
lists this tree by plain recursion, the last edge first, and `firsts` keeps of such a list
the walks whose state does not occur before them.
-/

namespace WordWalk

namespace Route

/-- The routes whose state does not occur earlier in the list. -/
def firsts (routes : List Route) : List Route := routes.eraseDupsBy fun a b => a.state == b.state

/-- The first routes of a list that comes after some others, which are given latest first. -/
def sift (routes earlier : List Route) : List Route :=
  List.eraseDupsBy.loop (fun a b => a.state == b.state) routes earlier

theorem firsts_eq_sift (routes : List Route) : firsts routes = sift routes [] := rfl

theorem sift_nil (earlier : List Route) : sift [] earlier = earlier.reverse := rfl

theorem any_state {r : Route} {earlier : List Route} :
    (earlier.any fun b => r.state == b.state) = true ↔ ∃ b ∈ earlier, b.state = r.state := by
  simp only [List.any_eq_true, beq_iff_eq, eq_comm (a := r.state)]

theorem sift_old {r : Route} {earlier : List Route} (old : ∃ b ∈ earlier, b.state = r.state)
    (routes : List Route) : sift (r :: routes) earlier = sift routes earlier := by
  rw [sift, List.eraseDupsBy.loop, any_state.mpr old]
  rfl

theorem sift_new {r : Route} {earlier : List Route} (new : ¬ ∃ b ∈ earlier, b.state = r.state)
    (routes : List Route) : sift (r :: routes) earlier = sift routes (r :: earlier) := by
  rw [sift, List.eraseDupsBy.loop, Bool.eq_false_iff.mpr fun old => new (any_state.mp old)]
  rfl

theorem sift_append_old {old earlier : List Route}
    (known : ∀ r ∈ old, ∃ b ∈ earlier, b.state = r.state) (routes : List Route) :
    sift (old ++ routes) earlier = sift routes earlier := by
  induction old with
  | nil => rfl
  | cons r old ih =>
      rw [List.forall_mem_cons] at known
      rw [List.cons_append, sift_old known.1, ih known.2]

/-- It does not matter whether routes are left out before or after, if states decide on it. -/
theorem filter_sift {keep : Route → Bool}
    (same : ∀ {a b : Route}, a.state = b.state → keep a = keep b) (routes earlier : List Route) :
    (sift routes earlier).filter keep = sift (routes.filter keep) (earlier.filter keep) := by
  induction routes generalizing earlier with
  | nil => rw [sift_nil, List.filter_nil, sift_nil, List.filter_reverse]
  | cons r routes ih =>
      by_cases kept : keep r = true
      · rw [List.filter_cons_of_pos kept]
        by_cases old : ∃ b ∈ earlier, b.state = r.state
        · have still : ∃ b ∈ earlier.filter keep, b.state = r.state := by
            obtain ⟨b, member, equal⟩ := old
            exact ⟨b, List.mem_filter.mpr ⟨member, (same equal).trans kept⟩, equal⟩
          rw [sift_old old, sift_old still, ih]
        · have still : ¬ ∃ b ∈ earlier.filter keep, b.state = r.state := by
            rintro ⟨b, member, equal⟩
            exact old ⟨b, List.mem_of_mem_filter member, equal⟩
          rw [sift_new old, sift_new still, ih, List.filter_cons_of_pos kept]
      · rw [List.filter_cons_of_neg kept]
        by_cases old : ∃ b ∈ earlier, b.state = r.state
        · rw [sift_old old, ih]
        · rw [sift_new old, ih, List.filter_cons_of_neg kept]

theorem filter_firsts {keep : Route → Bool}
    (same : ∀ {a b : Route}, a.state = b.state → keep a = keep b) (routes : List Route) :
    (firsts routes).filter keep = firsts (routes.filter keep) := by
  rw [firsts_eq_sift, firsts_eq_sift, filter_sift same, List.filter_nil]

theorem find?_of_mem_sift {r : Route} {routes earlier : List Route} (member : r ∈ sift routes earlier) :
    r ∈ earlier ∨
      (∀ b ∈ earlier, b.state ≠ r.state) ∧ routes.find? (·.state == r.state) = some r := by
  induction routes generalizing earlier with
  | nil => exact .inl (List.mem_reverse.mp member)
  | cons a routes ih =>
      by_cases old : ∃ b ∈ earlier, b.state = a.state
      · rw [sift_old old] at member
        rcases ih member with before | ⟨fresh, found⟩
        · exact .inl before
        · obtain ⟨b, known, equal⟩ := old
          have other : a.state ≠ r.state := fun same => fresh b known (equal.trans same)
          refine .inr ⟨fresh, ?_⟩
          rwa [List.find?_cons_of_neg (by simpa using other)]
      · rw [sift_new old] at member
        rcases ih member with before | ⟨fresh, found⟩
        · rcases List.mem_cons.mp before with rfl | before
          · refine .inr ⟨fun b known equal => old ⟨b, known, equal⟩, ?_⟩
            exact List.find?_cons_of_pos (beq_self_eq_true _)
          · exact .inl before
        · obtain ⟨other, fresh⟩ := List.forall_mem_cons.mp fresh
          refine .inr ⟨fresh, ?_⟩
          rwa [List.find?_cons_of_neg (by simpa using other)]

theorem find?_of_mem_firsts {r : Route} {routes : List Route} (member : r ∈ firsts routes) :
    routes.find? (·.state == r.state) = some r := by
  rw [firsts_eq_sift] at member
  rcases find?_of_mem_sift member with before | ⟨_, found⟩
  · cases before
  · exact found

end Route

namespace Graph

variable {g : Graph} {target : String} {depth : Nat}

/-- The walks that continue `t` by up to `depth` edges: first `t` itself, then all that go on
    by the last edge, and so on to the first edge. Nothing goes on from the target. -/
def preorder (g : Graph) (target : String) : Nat → Trail → List Trail
  | 0, t => [t]
  | depth + 1, t =>
      if t.node = target then [t]
      else t :: (g.edges t.node).reverse.flatMap fun e => g.preorder target depth (t.extend e)

theorem mem_preorder_self (depth : Nat) (t : Trail) : t ∈ g.preorder target depth t := by
  cases depth with
  | zero => exact List.mem_singleton_self t
  | succ depth =>
      simp only [preorder]
      split
      · exact List.mem_singleton_self t
      · exact List.mem_cons_self

theorem mem_preorder_succ {t u : Trail} :
    u ∈ g.preorder target (depth + 1) t ↔
      u = t ∨ t.node ≠ target ∧ ∃ e ∈ g.edges t.node, u ∈ g.preorder target depth (t.extend e) := by
  simp only [preorder]
  split
  · rename_i there
    simp [there]
  · rename_i away
    simp [away]

theorem length_of_mem_preorder {t u : Trail} (member : u ∈ g.preorder target depth t) :
    t.labels.length ≤ u.labels.length ∧ u.labels.length ≤ t.labels.length + depth := by
  induction depth generalizing t with
  | zero =>
      obtain rfl := List.mem_singleton.mp member
      exact ⟨Nat.le_refl _, Nat.le_refl _⟩
  | succ depth ih =>
      rcases mem_preorder_succ.mp member with rfl | ⟨_, e, _, later⟩
      · exact ⟨Nat.le_refl _, Nat.le_add_right _ _⟩
      · have := ih later
        simp only [Trail.extend, List.length_cons] at this
        omega

theorem extend_mem_preorder {t u : Trail} {e : Edge} (member : u ∈ g.preorder target depth t)
    (room : u.labels.length < t.labels.length + depth) (away : u.node ≠ target)
    (edge : e ∈ g.edges u.node) : u.extend e ∈ g.preorder target depth t := by
  induction depth generalizing t with
  | zero =>
      have := (length_of_mem_preorder member).1
      omega
  | succ depth ih =>
      rcases mem_preorder_succ.mp member with rfl | ⟨off, f, first, later⟩
      · exact mem_preorder_succ.mpr (.inr ⟨away, e, edge, mem_preorder_self depth _⟩)
      · refine mem_preorder_succ.mpr (.inr ⟨off, f, first, ih later ?_⟩)
        simp only [Trail.extend, List.length_cons]
        omega

theorem preorder_there {t : Trail} (there : t.node = target) : g.preorder target depth t = [t] := by
  cases depth with
  | zero => rfl
  | succ depth => rw [preorder, if_pos there]

theorem preorder_dead {t : Trail} (dead : g.edges t.node = []) : g.preorder target depth t = [t] := by
  cases depth with
  | zero => rfl
  | succ depth =>
      simp only [preorder, dead, List.reverse_nil, List.flatMap_nil]
      split <;> rfl

theorem preorder_extend {t : Trail} (away : t.node ≠ target) :
    g.preorder target (depth + 1) t =
      t :: ((g.edges t.node).map t.extend).reverse.flatMap (g.preorder target depth) := by
  rw [preorder, if_neg away, ← List.map_reverse, List.flatMap_map]

theorem filter_preorder_of_lt {limit : Nat} {t : Trail} (long : limit < t.labels.length) :
    (g.preorder target depth t).filter (·.labels.length ≤ limit) = [] := by
  rw [List.filter_eq_nil_iff]
  intro u member
  have := (length_of_mem_preorder member).1
  simp only [decide_eq_true_eq]
  omega

/-- The short walks are the preorder of a smaller tree. -/
theorem filter_preorder {limit : Nat} {t : Trail} (short : t.labels.length ≤ limit)
    (deep : limit ≤ t.labels.length + depth) :
    (g.preorder target depth t).filter (·.labels.length ≤ limit) =
      g.preorder target (limit - t.labels.length) t := by
  induction depth generalizing t with
  | zero =>
      have none : limit - t.labels.length = 0 := by omega
      simp [none, preorder, short]
  | succ depth ih =>
      by_cases there : t.node = target
      · rw [preorder_there there, preorder_there there]
        simp [short]
      rw [preorder, if_neg there, List.filter_cons_of_pos (by simpa using short), List.filter_flatMap]
      cases left : limit - t.labels.length with
      | zero =>
          -- all that continues the walk is too long
          have longer : ∀ e : Edge,
              (g.preorder target depth (t.extend e)).filter (·.labels.length ≤ limit) = [] := by
            intro e
            apply filter_preorder_of_lt
            simp only [Trail.extend, List.length_cons]
            omega
          simp [longer, preorder]
      | succ rest =>
          have each : ∀ e : Edge,
              (g.preorder target depth (t.extend e)).filter (·.labels.length ≤ limit) =
                g.preorder target rest (t.extend e) := by
            intro e
            have less : limit - (t.extend e).labels.length = rest := by
              simp only [Trail.extend, List.length_cons]
              omega
            rw [← less]
            apply ih
            all_goals
              simp only [Trail.extend, List.length_cons]
              omega
          simp only [each, preorder, if_neg there]

end Graph

namespace Query

variable {q : Query} {depth : Nat}

theorem reaches_of_mem_preorder {t u : Trail} (reached : q.Reaches t)
    (member : u ∈ q.graph.preorder q.target depth t) : q.Reaches u := by
  induction depth generalizing t with
  | zero =>
      obtain rfl := List.mem_singleton.mp member
      exact reached
  | succ depth ih =>
      rcases Graph.mem_preorder_succ.mp member with rfl | ⟨away, e, edge, later⟩
      · exact reached
      · exact ih (.extend reached away edge) later

/-- The preorder from the source has all walks that are short enough. -/
theorem mem_preorder_start {t : Trail} :
    t ∈ q.graph.preorder q.target depth (.start q.source) ↔ q.Reaches t ∧ t.labels.length ≤ depth := by
  constructor
  · intro member
    have short := (Graph.length_of_mem_preorder member).2
    refine ⟨reaches_of_mem_preorder .start member, ?_⟩
    rwa [Trail.start, List.length_nil, Nat.zero_add] at short
  · rintro ⟨reached, short⟩
    induction reached with
    | start => exact Graph.mem_preorder_self depth _
    | @extend t e _ away edge ih =>
        simp only [Trail.extend, List.length_cons] at short
        apply Graph.extend_mem_preorder (ih (Nat.le_of_succ_le short)) _ away edge
        rwa [Trail.start, List.length_nil, Nat.zero_add]

end Query

end WordWalk
