import WordWalk.Proofs.Saturation
import WordWalk.Proofs.SearchStep
import WordWalk.Proofs.Walk

/-! # What a search preserves

Every walk on the stack, every recorded state and every route is a walk of the query within
the limits. Until the number of states is used up, the continuations of a recorded
state are recorded or on the stack, every accepted arrival among the recorded states has
its route, and a truncation tells of a recorded state that was cut short.
-/

namespace WordWalk

namespace Trail

theorem state_eq_iff {t u : Trail} : t.state = u.state ↔ t.node = u.node ∧ t.labels = u.labels :=
  List.cons.injEq .. ▸ Iff.rfl

theorem state_extend {t u : Trail} (same : t.state = u.state) (e : Edge) :
    (t.extend e).state = (u.extend e).state := by
  rw [state_eq_iff] at same ⊢
  exact ⟨rfl, congrArg (e.label :: ·) same.2⟩

end Trail

namespace Query

open Saturation (mem_insert)

variable {q : Query} {p p' : Progress}

/-- All that is found belongs to a walk within the limits, and no labels are found twice. -/
structure Sound (q : Query) (p : Progress) : Prop where
  stack : ∀ t ∈ p.stack, q.Reaches t ∧ q.limits.Admits t.labels.length
  seen : ∀ s ∈ p.seen, ∃ t : Trail, t.state = s ∧ q.Reaches t ∧ q.limits.Admits t.labels.length
  routes : ∀ r ∈ p.routes, ∃ t : Trail, t.route = r ∧ q.Reaches t ∧ q.limits.Admits t.labels.length ∧
    t.node = q.target ∧ q.index.accepts r.labels = true ∧ t.state ∈ p.seen
  distinct : (p.routes.map Route.labels).Nodup
  room : ∀ limit, q.limits.maxStates = some limit → p.seen.size ≤ limit

theorem sound_initial (q : Query) : q.Sound q.initial where
  stack := by
    intro t member
    simp only [initial] at member
    split at member
    · obtain rfl := List.mem_singleton.mp member
      exact ⟨.start, fun _ _ => Nat.zero_le _⟩
    · cases member
  seen := by simp [initial]
  routes := by simp [initial]
  distinct := List.nodup_nil
  room := by simp [initial]

namespace Sound

theorem top (h : q.Sound p) {t rest} (next : p.stack = t :: rest) :
    q.Reaches t ∧ q.limits.Admits t.labels.length :=
  h.stack t (next ▸ List.mem_cons_self)

theorem below (h : q.Sound p) {t rest} (next : p.stack = t :: rest) :
    ∀ u ∈ rest, q.Reaches u ∧ q.limits.Admits u.labels.length :=
  fun u member => h.stack u (next ▸ List.mem_cons_of_mem t member)

theorem seen_insert (h : q.Sound p) {t rest} (next : p.stack = t :: rest) :
    ∀ s ∈ p.seen.insert t.state,
      ∃ u : Trail, u.state = s ∧ q.Reaches u ∧ q.limits.Admits u.labels.length := by
  intro s member
  rcases mem_insert.mp member with rfl | old
  · exact ⟨t, rfl, h.top next⟩
  · exact h.seen s old

theorem routes_insert (h : q.Sound p) (t : Trail) :
    ∀ r ∈ p.routes, ∃ u : Trail, u.route = r ∧ q.Reaches u ∧ q.limits.Admits u.labels.length ∧
      u.node = q.target ∧ q.index.accepts r.labels = true ∧ u.state ∈ p.seen.insert t.state := by
  intro r member
  obtain ⟨u, same, reached, admitted, there, accepted, old⟩ := h.routes r member
  exact ⟨u, same, reached, admitted, there, accepted, mem_insert.mpr (.inr old)⟩

theorem room_insert {t : Trail} (room : ∀ limit, q.limits.maxStates = some limit → p.seen.size < limit)
    (limit : Nat) (bound : q.limits.maxStates = some limit) : (p.seen.insert t.state).size ≤ limit :=
  Nat.le_trans Std.TreeSet.size_insert_le (room limit bound)

theorem new_labels (h : q.Sound p) {t : Trail} (fresh : t.state ∉ p.seen) (there : t.node = q.target) :
    t.route.labels ∉ p.routes.map Route.labels := by
  intro member
  obtain ⟨r, found, same⟩ := List.mem_map.mp member
  obtain ⟨u, rfl, _, _, arrived, _, old⟩ := h.routes r found
  -- both walks end at the target, so equal labels would make them one state
  have state : t.state = u.state :=
    Trail.state_eq_iff.mpr ⟨there.trans arrived.symm, (List.reverse_inj.mp same).symm⟩
  exact fresh (state ▸ old)

theorem move (h : q.Sound p) (m : q.Move p p') : q.Sound p' := by
  cases m with
  | drop next _ => exact { h with stack := h.below next }
  | stop next _ _ _ => exact { h with stack := by simp }
  | @arrive t rest next fresh room there =>
      refine ⟨h.below next, h.seen_insert next, ?_, ?_, room_insert room⟩
      · dsimp only
        split
        · rename_i accepted
          obtain ⟨reached, admitted⟩ := h.top next
          exact List.forall_mem_cons.mpr ⟨⟨t, rfl, reached, admitted, there, accepted,
            mem_insert.mpr (.inl rfl)⟩, h.routes_insert t⟩
        · exact h.routes_insert t
      · dsimp only
        split
        · exact List.nodup_cons.mpr ⟨h.new_labels fresh there, h.distinct⟩
        · exact h.distinct
  | @cut t _ _ next _ room _ _ _ _ =>
      exact ⟨h.below next, h.seen_insert next, h.routes_insert t, h.distinct, room_insert room⟩
  | @follow t rest next _ room away short =>
      refine ⟨?_, h.seen_insert next, h.routes_insert t, h.distinct, room_insert room⟩
      obtain ⟨reached, _⟩ := h.top next
      refine List.forall_mem_append.mpr ⟨fun u member => ?_, h.below next⟩
      obtain ⟨e, edge, rfl⟩ := List.mem_map.mp (List.mem_reverse.mp member)
      refine ⟨.extend reached away edge, fun limit bound => ?_⟩
      exact short.resolve_left (List.ne_nil_of_mem edge) limit bound

end Sound

theorem sound_after (q : Query) (n : Nat) : q.Sound (q.after n) :=
  after_induction q.sound_initial Sound.move n

/-- A state is recorded or will be looked at. -/
def Pending (p : Progress) (state : List String) : Prop :=
  state ∈ p.seen ∨ ∃ t ∈ p.stack, t.state = state

theorem Pending.mono {state : List String} (h : Pending p state) (seen : ∀ s ∈ p.seen, s ∈ p'.seen)
    (stack : ∀ t ∈ p.stack, Pending p' t.state) : Pending p' state := by
  cases h with
  | inl old => exact .inl (seen state old)
  | inr waiting =>
      obtain ⟨t, member, rfl⟩ := waiting
      exact stack t member

/-- The walk could be continued but has the greatest length, which is the reason given. -/
structure CutAt (q : Query) (t : Trail) (why : Truncation) : Prop where
  away : t.node ≠ q.target
  alive : q.graph.edges t.node ≠ []
  long : ∃ limit, q.limits.maxLength = some limit ∧ limit ≤ t.labels.length ∧ why = .length limit

theorem CutAt.of_state {t u : Trail} {why : Truncation} (same : t.state = u.state)
    (h : q.CutAt t why) : q.CutAt u why := by
  obtain ⟨node, labels⟩ := Trail.state_eq_iff.mp same
  exact ⟨node ▸ h.away, node ▸ h.alive, labels ▸ h.long⟩

/-- The search goes on, and nothing within the limits is forgotten. -/
structure Running (q : Query) (p : Progress) : Prop where
  source : q.source ∈ q.graph → Pending p (Trail.start q.source).state
  successors : ∀ {t : Trail} {e}, t.state ∈ p.seen → t.node ≠ q.target →
    (∀ limit, q.limits.maxLength = some limit → t.labels.length < limit) →
    e ∈ q.graph.edges t.node → Pending p (t.extend e).state
  arrivals : ∀ {t : Trail}, t.state ∈ p.seen → t.node = q.target →
    q.index.accepts t.route.labels = true → ∃ r ∈ p.routes, r.labels = t.route.labels
  truncation : ∀ {why}, p.truncation = some why ↔ ∃ t : Trail, t.state ∈ p.seen ∧ q.CutAt t why

/-- The search is over because a new state turned up that could not be recorded. -/
structure Stopped (q : Query) (p : Progress) (limit : Nat) : Prop where
  settled : p.stack = []
  truncation : p.truncation = some (.states limit)
  bound : q.limits.maxStates = some limit
  spent : limit ≤ p.seen.size
  more : ∃ t : Trail, q.Reaches t ∧ q.limits.Admits t.labels.length ∧ t.state ∉ p.seen

namespace Running

theorem initial (q : Query) : q.Running q.initial where
  source := fun known => .inr ⟨_, by simp [Query.initial, known], rfl⟩
  successors := by simp [Query.initial]
  arrivals := by simp [Query.initial]
  truncation := by simp [Query.initial]

theorem pending_record {t rest} (next : p.stack = t :: rest) (seen : p'.seen = p.seen.insert t.state)
    (kept : rest ⊆ p'.stack) {state : List String} (h : Pending p state) : Pending p' state := by
  apply h.mono
  · intro s old
    rw [seen]
    exact mem_insert.mpr (.inr old)
  · rw [next, List.forall_mem_cons]
    refine ⟨.inl ?_, fun u member => .inr ⟨u, kept member, rfl⟩⟩
    rw [seen]
    exact mem_insert.mpr (.inl rfl)

theorem record (h : q.Running p) {t rest} (next : p.stack = t :: rest)
    (seen : p'.seen = p.seen.insert t.state) (kept : rest ⊆ p'.stack) (routes : p.routes ⊆ p'.routes)
    (continued : t.node ≠ q.target →
      (∀ limit, q.limits.maxLength = some limit → t.labels.length < limit) →
      ∀ e ∈ q.graph.edges t.node, t.extend e ∈ p'.stack)
    (arrived : t.node = q.target → q.index.accepts t.route.labels = true → t.route ∈ p'.routes)
    (told : ∀ why, p'.truncation = some why ↔ p.truncation = some why ∨ q.CutAt t why) :
    q.Running p' where
  source := fun known => pending_record next seen kept (h.source known)
  successors := by
    intro u e member away short edge
    rcases mem_insert.mp (seen ▸ member) with same | old
    · obtain ⟨node, labels⟩ := Trail.state_eq_iff.mp same
      have onStack := continued (node ▸ away) (labels ▸ short) e (node ▸ edge)
      exact .inr ⟨t.extend e, onStack, Trail.state_extend same.symm e⟩
    · exact pending_record next seen kept (h.successors old away short edge)
  arrivals := by
    intro u member there accepted
    rcases mem_insert.mp (seen ▸ member) with same | old
    · obtain ⟨node, labels⟩ := Trail.state_eq_iff.mp same
      have words : t.route.labels = u.route.labels := congrArg List.reverse labels.symm
      exact ⟨t.route, arrived (node ▸ there) (words ▸ accepted), words⟩
    · obtain ⟨r, found, same⟩ := h.arrivals old there accepted
      exact ⟨r, routes found, same⟩
  truncation := by
    intro why
    rw [told, h.truncation, seen]
    constructor
    · rintro (⟨u, old, cut⟩ | cut)
      · exact ⟨u, mem_insert.mpr (.inr old), cut⟩
      · exact ⟨t, mem_insert.mpr (.inl rfl), cut⟩
    · rintro ⟨u, member, cut⟩
      rcases mem_insert.mp member with same | old
      · exact .inr (cut.of_state same)
      · exact .inl ⟨u, old, cut⟩

theorem drop (h : q.Running p) {t rest} (next : p.stack = t :: rest) (old : t.state ∈ p.seen) :
    q.Running { p with stack := rest } := by
  have pending : ∀ {state}, Pending p state → Pending { p with stack := rest } state := by
    intro state waiting
    apply waiting.mono
    · exact fun _ recorded => recorded
    · rw [next, List.forall_mem_cons]
      exact ⟨.inl old, fun u member => .inr ⟨u, member, rfl⟩⟩
  exact { h with
    source := fun known => pending (h.source known)
    successors := fun member away short edge => pending (h.successors member away short edge) }

theorem move (h : q.Running p) (sound : q.Sound p) (m : q.Move p p') :
    q.Running p' ∨ ∃ limit, q.Stopped p' limit := by
  cases m with
  | drop next old => exact .inl (h.drop next old)
  | @stop t _ limit next fresh bound spent =>
      obtain ⟨reached, admitted⟩ := sound.top next
      exact .inr ⟨limit, rfl, rfl, bound, spent, t, reached, admitted, fresh⟩
  | @arrive t rest next _ _ there =>
      refine .inl (h.record next rfl (List.Subset.refl rest) ?_ ?_ ?_ ?_)
      · dsimp only
        split
        · exact List.subset_cons_self _ _
        · exact List.Subset.refl _
      · exact fun away => absurd there away
      · intro _ accepted
        simp [accepted]
      · exact fun why => (or_iff_left fun cut : q.CutAt t why => cut.away there).symm
  | @cut t rest limit next _ _ away alive bound long =>
      refine .inl (h.record next rfl (List.Subset.refl rest) (List.Subset.refl _) ?_ ?_ ?_)
      · exact fun _ short => absurd (short limit bound) (Nat.not_lt.mpr long)
      · exact fun there => absurd there away
      · intro why
        have only : q.CutAt t why ↔ .length limit = why := by
          constructor
          · rintro ⟨_, _, other, bound', _, rfl⟩
            rw [Option.some.inj (bound.symm.trans bound')]
          · rintro rfl
            exact ⟨away, alive, limit, bound, long, rfl⟩
        rw [only]
        -- only the limit on the length was told before, so it does not matter who tells of it
        cases told : p.truncation with
        | none => simp
        | some before =>
            obtain ⟨_, _, _, _, _, bound', _, rfl⟩ := h.truncation.mp told
            rw [← Option.some.inj (bound.symm.trans bound')]
            simp
  | @follow t rest next _ _ away short =>
      refine .inl (h.record next rfl (List.subset_append_right _ rest) (List.Subset.refl _) ?_ ?_ ?_)
      · intro _ _ e edge
        exact List.mem_append_left _ (List.mem_reverse.mpr (List.mem_map_of_mem edge))
      · exact fun there => absurd there away
      · refine fun why => (or_iff_left fun cut : q.CutAt t why => ?_).symm
        obtain ⟨_, alive, limit, bound, long, _⟩ := cut
        exact Nat.not_lt.mpr long (short.resolve_left alive limit bound)

/-- Once the stack is empty, every walk is recorded that is within the greatest length or that
    was not cut short. -/
theorem seen_of_reaches (h : q.Running p) (settled : p.stack = []) (known : q.source ∈ q.graph)
    {t : Trail} (reached : q.Reaches t)
    (free : p.truncation = none ∨ q.limits.Admits t.labels.length) : t.state ∈ p.seen := by
  have recorded : ∀ {state}, Pending p state → state ∈ p.seen := by
    intro state waiting
    cases waiting with
    | inl old => exact old
    | inr onStack => simp [settled] at onStack
  induction reached with
  | start => exact recorded (h.source known)
  | @extend t e _ away edge ih =>
      have before : t.state ∈ p.seen :=
        ih (free.imp_right fun admitted limit bound => Nat.le_of_succ_le (admitted limit bound))
      refine recorded (h.successors before away (fun limit bound => ?_) edge)
      cases free with
      | inl none =>
          -- a walk that is too long here would have been cut, and the cut would be told
          by_contra long
          have cut : q.CutAt t (.length limit) :=
            ⟨away, List.ne_nil_of_mem edge, limit, bound, Nat.not_lt.mp long, rfl⟩
          have told := h.truncation.mpr ⟨t, before, cut⟩
          simp [none] at told
      | inr admitted => exact admitted limit bound

end Running

theorem stage_after (q : Query) (n : Nat) :
    q.Running (q.after n) ∨ ∃ limit, q.Stopped (q.after n) limit := by
  refine after_induction_of (P := fun p => q.Running p ∨ ∃ limit, q.Stopped p limit) q.sound_after
    (.inl (.initial q)) ?_ n
  intro p p' sound stage m
  cases stage with
  | inl running => exact running.move sound m
  | inr ended =>
      obtain ⟨_, stopped⟩ := ended
      exact absurd stopped.settled m.unsettled

end Query

end WordWalk
