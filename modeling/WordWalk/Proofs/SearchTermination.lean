import Mathlib
import WordWalk.Proofs.SearchInvariant

/-! # Searches that come to an end

A search that is over after some number of steps is over at its final progress: the rounds
reserved for it are enough. With a bound on the states, every recorded state pays for its
continuations. Otherwise the walks are bounded in length, by the limit or because a loop
away from the target would keep an unlimited search from ending.
-/

namespace WordWalk

theorem Graph.edges_length_le (g : Graph) (node : String) : (g.edges node).length ≤ g.edgeCount := by
  have counted : ∀ (nodes : List (String × List Edge)), ∀ x ∈ nodes,
      x.2.length ≤ nodes.foldr (fun node n => node.2.length + n) 0 := by
    intro nodes
    induction nodes with
    | nil => simp
    | cons first rest ih =>
        refine List.forall_mem_cons.mpr ⟨Nat.le_add_right _ _, fun x member => ?_⟩
        exact Nat.le_trans (ih x member) (Nat.le_add_left _ _)
  rw [edges, Std.ExtTreeMap.getD_eq_getD_getElem?]
  cases found : g.adjacency[node]? with
  | none => exact Nat.zero_le _
  | some edges =>
      exact counted g.toList (node, edges) (Std.ExtTreeMap.mem_toList_iff_getElem?_eq_some.mpr found)

namespace Query

variable {q : Query}

/-- The search is over after some number of steps. -/
def Terminates (q : Query) : Prop := ∃ n, (q.after n).isSettled = true

theorem after_eq_iterate (q : Query) (n : Nat) : q.after n = q.step^[n] q.initial := by
  induction n with
  | zero => rfl
  | succ n ih => rw [after, ih, Function.iterate_succ_apply']

theorem after_of_settled {n m : Nat} (settled : (q.after n).stack = []) (later : n ≤ m) :
    q.after m = q.after n := by
  obtain ⟨k, rfl⟩ := Nat.exists_eq_add_of_le' later
  rw [after_eq_iterate, Function.iterate_add_apply, ← after_eq_iterate]
  exact Function.iterate_fixed (step_settled settled) k

theorem burst_eq_iterate (q : Query) (k : Nat) (p : Progress) : q.burst k p = q.step^[2 ^ k] p := by
  induction k generalizing p with
  | zero => rfl
  | succ k ih =>
      have twice : q.step^[2 ^ (k + 1)] p = q.step^[2 ^ k] (q.step^[2 ^ k] p) := by
        rw [← Function.iterate_add_apply, Nat.pow_succ, Nat.mul_two]
      rw [burst, twice, ← ih p]
      split
      · rename_i settled
        exact (Function.iterate_fixed (step_settled (List.isEmpty_iff.mp settled)) _).symm
      · exact ih _

theorem settle_eq_iterate (q : Query) (rounds k : Nat) (p : Progress) :
    q.settle rounds k p = q.step^[2 ^ k * (2 ^ rounds - 1)] p := by
  induction rounds generalizing k p with
  | zero => rfl
  | succ rounds ih =>
      rw [settle]
      split
      · rename_i settled
        exact (Function.iterate_fixed (step_settled (List.isEmpty_iff.mp settled)) _).symm
      · rw [ih, burst_eq_iterate, ← Function.iterate_add_apply]
        congr 1
        have := Nat.two_pow_pos rounds
        have split : 2 ^ (rounds + 1) - 1 = 2 * (2 ^ rounds - 1) + 1 := by
          rw [Nat.pow_succ]
          omega
        rw [split, Nat.pow_succ, Nat.mul_add, Nat.mul_one, Nat.mul_assoc]

theorem final_eq_after (q : Query) : q.final = q.after (2 ^ q.rounds - 1) := by
  rw [final, settle_eq_iterate, after_eq_iterate, Nat.pow_zero, Nat.one_mul]

/-- A weight that every move takes something off bounds the number of steps. -/
theorem settled_of_weight (weight : Progress → Nat)
    (drops : ∀ {p p'}, q.Sound p → q.Move p p' → weight p' < weight p) {n : Nat}
    (enough : weight q.initial ≤ n) : (q.after n).stack = [] := by
  have drop : ∀ k, (q.after k).stack ≠ [] → weight (q.after (k + 1)) < weight (q.after k) := by
    intro k unsettled
    obtain ⟨t, rest, next⟩ := List.exists_cons_of_ne_nil unsettled
    exact drops (q.sound_after k) (step_move next)
  have spent : ∀ k, (q.after k).stack = [] ∨ weight (q.after k) + k ≤ weight q.initial := by
    intro k
    induction k with
    | zero => exact .inr (Nat.le_refl _)
    | succ k ih =>
        by_cases settled : (q.after k).stack = []
        · exact .inl (by rw [after_of_settled settled (Nat.le_succ k), settled])
        · have := drop k settled
          have := ih.resolve_left settled
          exact .inr (by omega)
  by_contra unsettled
  have := drop n unsettled
  have := (spent n).resolve_left unsettled
  omega

theorem size_insert_fresh {p : Progress} {t : Trail} (fresh : t.state ∉ p.seen) :
    (p.seen.insert t.state).size = p.seen.size + 1 := by
  rw [Std.TreeSet.size_insert, if_neg (by simpa using fresh)]

theorem settled_of_maxStates {limit : Nat} (bound : q.limits.maxStates = some limit) {n : Nat}
    (enough : limit * q.graph.edgeCount + 1 ≤ n) : (q.after n).stack = [] := by
  apply settled_of_weight
    (fun p => p.stack.length + (limit - p.seen.size) * q.graph.edgeCount)
  · -- a recorded state takes one share of edges off the weight and adds no more walks than that
    have share : ∀ {p : Progress} {t : Trail}, t.state ∉ p.seen →
        (∀ limit, q.limits.maxStates = some limit → p.seen.size < limit) →
        (limit - p.seen.size) * q.graph.edgeCount =
          (limit - (p.seen.insert t.state).size) * q.graph.edgeCount + q.graph.edgeCount := by
      intro p t fresh room
      have := room limit bound
      rw [size_insert_fresh fresh, ← Nat.succ_mul]
      congr 1
      omega
    intro p p' _ m
    cases m with
    | drop next _ =>
        simp only [next, List.length_cons]
        omega
    | stop next _ _ _ =>
        simp only [next, List.length_cons, List.length_nil]
        omega
    | arrive next fresh room _ =>
        simp only [next, List.length_cons, share fresh room]
        omega
    | cut next fresh room _ _ _ _ =>
        simp only [next, List.length_cons, share fresh room]
        omega
    | @follow t _ next fresh room _ _ =>
        have := q.graph.edges_length_le t.node
        simp only [next, List.length_append, List.length_reverse, List.length_map, List.length_cons,
          share fresh room]
        omega
  · simp only [initial, Std.TreeSet.size_emptyc, Nat.sub_zero]
    split <;> simp <;> omega

theorem settled_of_depth {depth : Nat}
    (short : ∀ t, q.Reaches t → q.limits.Admits t.labels.length → t.labels.length ≤ depth) {n : Nat}
    (enough : (q.graph.edgeCount + 1) ^ depth ≤ n) : (q.after n).stack = [] := by
  let weigh (t : Trail) : Nat := (q.graph.edgeCount + 1) ^ (depth - t.labels.length)
  have positive : ∀ t, 0 < weigh t := fun t => Nat.pow_pos (Nat.succ_pos _)
  apply settled_of_weight (fun p => (p.stack.map weigh).sum)
  · intro p p' sound m
    have after : q.Sound p' := sound.move m
    cases m with
    | @drop t _ next _ =>
        have := positive t
        simp only [next, List.map_cons, List.sum_cons]
        omega
    | @stop t _ _ next _ _ _ =>
        have := positive t
        simp only [next, List.map_cons, List.sum_cons, List.map_nil, List.sum_nil]
        omega
    | @arrive t _ next _ _ _ =>
        have := positive t
        simp only [next, List.map_cons, List.sum_cons]
        omega
    | @cut t _ _ next _ _ _ _ _ _ =>
        have := positive t
        simp only [next, List.map_cons, List.sum_cons]
        omega
    | @follow t rest next _ _ _ _ =>
        simp only [next, List.map_append, List.map_reverse, List.map_map, List.sum_append,
          List.sum_reverse, List.map_cons, List.sum_cons, Nat.add_lt_add_iff_right]
        cases edges : q.graph.edges t.node with
        | nil => simpa using positive t
        | cons e more =>
            -- all children weigh the same, and there are too few of them to make up for the parent
            obtain ⟨reached, admitted⟩ := after.stack (t.extend e) (by simp [edges])
            have deeper : t.labels.length + 1 ≤ depth := short _ reached admitted
            let child := (q.graph.edgeCount + 1) ^ (depth - (t.labels.length + 1))
            have same : (e :: more).map (weigh ∘ t.extend) =
                List.replicate (e :: more).length child := by
              change (e :: more).map (fun _ => child) = _
              rw [List.map_const']
            have parent : weigh t = child * (q.graph.edgeCount + 1) := by
              rw [← Nat.pow_succ]
              simp only [weigh]
              congr 1
              omega
            have few : (e :: more).length ≤ q.graph.edgeCount := edges ▸ q.graph.edges_length_le t.node
            have : 0 < child := Nat.pow_pos (Nat.succ_pos _)
            rw [same, List.sum_replicate, smul_eq_mul, parent, Nat.mul_comm child]
            exact Nat.mul_lt_mul_of_pos_right (Nat.lt_succ_of_le few) this
  · simp only [initial]
    split
    · simpa [weigh, Trail.start] using enough
    · simp

/-- Some number of edges leads from one node to the other without leaving the target. -/
inductive Strays (q : Query) : Nat → String → String → Prop
  | here {a} : Strays q 0 a a
  | step {n a b e} (before : Strays q n a b) (away : b ≠ q.target) (edge : e ∈ q.graph.edges b) :
      Strays q (n + 1) a e.target

theorem Strays.append {n m : Nat} {a b c : String} (h : q.Strays n a b) (k : q.Strays m b c) :
    q.Strays (n + m) a c := by
  induction k with
  | here => exact h
  | step _ away edge ih => exact .step (ih h) away edge

theorem Strays.repeated {n : Nat} {a : String} (h : q.Strays n a a) (m : Nat) : q.Strays (m * n) a a := by
  induction m with
  | zero => rw [Nat.zero_mul]; exact .here
  | succ m ih => rw [Nat.succ_mul]; exact ih.append h

theorem Strays.reaches {n : Nat} {b : String} (h : q.Strays n q.source b) :
    ∃ t, q.Reaches t ∧ t.node = b ∧ t.labels.length = n := by
  generalize start : q.source = a at h
  induction h with
  | here => exact ⟨_, .start, start, rfl⟩
  | @step n a b e _ away edge ih =>
      obtain ⟨t, reached, rfl, length⟩ := ih start
      exact ⟨t.extend e, .extend reached away edge, rfl, congrArg (· + 1) length⟩

namespace Reaches

theorem strays {t : Trail} (h : q.Reaches t) : q.Strays t.labels.length q.source t.node := by
  induction h with
  | start => exact .here
  | extend _ away edge ih => exact .step ih away edge

theorem behind_length {t : Trail} (h : q.Reaches t) : t.behind.length = t.labels.length := by
  induction h with
  | start => rfl
  | extend _ _ _ ih => exact congrArg (· + 1) ih

theorem strays_behind {t : Trail} (h : q.Reaches t) {a : String} (passed : a ∈ t.behind) :
    ∃ n k, q.Strays n q.source a ∧ q.Strays (k + 1) a t.node := by
  induction h with
  | start => simp [Trail.start] at passed
  | @extend t e before away edge ih =>
      rcases List.mem_cons.mp passed with rfl | passed
      · exact ⟨_, 0, before.strays, .step .here away edge⟩
      · obtain ⟨n, k, hn, hk⟩ := ih passed
        exact ⟨n, k + 1, hn, .step hk away edge⟩

theorem endless {t : Trail} (h : q.Reaches t) (twice : ¬ (t.node :: t.behind).Nodup) (n : Nat) :
    ∃ u, q.Reaches u ∧ n ≤ u.labels.length := by
  induction h with
  | start => simp [Trail.start] at twice
  | @extend t e before away edge ih =>
      by_cases once : (t.node :: t.behind).Nodup
      · -- the node just met was passed before, so the way from there to here is a loop
        have passed : e.target ∈ (t.extend e).behind := by
          by_contra fresh
          exact twice (List.nodup_cons.mpr ⟨fresh, once⟩)
        obtain ⟨m, k, reaching, loop⟩ := (Reaches.extend before away edge).strays_behind passed
        obtain ⟨u, reached, _, length⟩ := (reaching.append (loop.repeated n)).reaches
        refine ⟨u, reached, ?_⟩
        rw [length]
        exact Nat.le_add_left_of_le (Nat.le_mul_of_pos_right n (Nat.succ_pos k))
      · exact ih once

theorem length_le_nodeCount {t : Trail} (h : q.Reaches t) (distinct : t.behind.Nodup) :
    t.labels.length ≤ q.graph.nodeCount := by
  have inside : t.behind ⊆ q.graph.adjacency.keys :=
    fun node passed => Std.ExtTreeMap.mem_keys.mpr (h.behind_mem node passed)
  have := distinct.length_le_of_subset inside
  rwa [h.behind_length, Std.ExtTreeMap.length_keys] at this

end Reaches

/-- Some walk that stays away from the target meets a node twice. -/
def Circles (q : Query) : Prop := ∃ r, q.Walk r ∧ q.target ∉ r.nodes ∧ ¬ r.nodes.Nodup

theorem Circles.endless (h : q.Circles) (n : Nat) : ∃ t, q.Reaches t ∧ n ≤ t.labels.length := by
  obtain ⟨r, walk, _, twice⟩ := h
  obtain ⟨t, reached, rfl⟩ := exists_trail walk
  apply reached.endless _ n
  intro once
  exact twice (List.nodup_reverse.mpr once)

theorem Reaches.length_le_of_straight {t : Trail} (h : q.Reaches t) (straight : ¬ q.Circles) :
    t.labels.length ≤ q.graph.nodeCount := by
  apply h.length_le_nodeCount
  cases h with
  | start => exact List.nodup_nil
  | @extend t e before away edge =>
      -- the walk before the last edge never meets the target, so it meets every node once
      have walk : q.Walk t.route := reaches_iff_walk.mp before
      have avoids : q.target ∉ t.route.nodes := by
        intro met
        exact (mem_route_nodes.mp met).elim walk.avoids (Ne.symm away)
      by_contra twice
      apply straight
      refine ⟨t.route, walk, avoids, ?_⟩
      intro once
      exact twice (List.nodup_reverse.mp once)

theorem bounded_of_terminates (ends : q.Terminates) (known : q.source ∈ q.graph)
    (noStates : q.limits.maxStates = none) (noLength : q.limits.maxLength = none) :
    ∃ depth, ∀ t, q.Reaches t → t.labels.length ≤ depth := by
  obtain ⟨n, settled⟩ := ends
  have settled := List.isEmpty_iff.mp settled
  rcases q.stage_after n with running | ⟨_, stopped⟩
  · have within : ∀ length, q.limits.Admits length := by simp [Limits.Admits, noLength]
    -- a recorded state is longer than its labels, so the sum of all lengths is a bound
    refine ⟨((q.after n).seen.toList.map List.length).sum, fun t reached => ?_⟩
    have recorded := running.seen_of_reaches settled known reached (.inr (within _))
    have member : t.state.length ∈ (q.after n).seen.toList.map List.length :=
      List.mem_map_of_mem (Std.TreeSet.mem_toList.mpr recorded)
    exact Nat.le_trans (Nat.le_succ _) (List.le_sum_of_mem member)
  · exact absurd stopped.bound (by simp [noStates])

theorem straight_of_terminates (ends : q.Terminates) (known : q.source ∈ q.graph)
    (noStates : q.limits.maxStates = none) (noLength : q.limits.maxLength = none) : ¬ q.Circles := by
  intro circles
  obtain ⟨depth, bounded⟩ := bounded_of_terminates ends known noStates noLength
  obtain ⟨t, reached, long⟩ := circles.endless (depth + 1)
  have := bounded t reached
  omega

theorem lt_two_pow_rounds (n : Nat) : n < 2 ^ (n.log2 + 1) := Nat.lt_log2_self

/-- The rounds of a search are enough whenever any number of steps is. -/
theorem final_settled (ends : q.Terminates) : q.final.stack = [] := by
  rw [final_eq_after]
  by_cases known : q.source ∈ q.graph
  · cases states : q.limits.maxStates with
    | some limit =>
        refine settled_of_maxStates states ?_
        have := lt_two_pow_rounds (limit * q.graph.edgeCount + 1)
        simp only [rounds, states]
        omega
    | none =>
        let depth := q.limits.maxLength.getD (q.graph.nodeCount + 1)
        have short : ∀ t, q.Reaches t → q.limits.Admits t.labels.length → t.labels.length ≤ depth := by
          intro t reached admitted
          cases length : q.limits.maxLength with
          | some limit => simpa [depth, length] using admitted limit length
          | none =>
              have := reached.length_le_of_straight (straight_of_terminates ends known states length)
              simp only [depth, length, Option.getD_none]
              omega
        refine settled_of_depth short ?_
        let digits := (q.graph.edgeCount + 1).log2 + 1
        have fits : q.rounds = digits * (depth + 1) + 1 := by simp only [rounds, states, digits, depth]
        have larger : 2 ^ (digits * depth) ≤ 2 ^ (digits * (depth + 1)) :=
          Nat.pow_le_pow_right Nat.two_pos (Nat.mul_le_mul_left digits (Nat.le_succ depth))
        have := Nat.two_pow_pos (digits * (depth + 1))
        calc (q.graph.edgeCount + 1) ^ depth
          _ ≤ (2 ^ digits) ^ depth := Nat.pow_le_pow_left (lt_two_pow_rounds _).le depth
          _ = 2 ^ (digits * depth) := (Nat.pow_mul ..).symm
          _ ≤ 2 ^ q.rounds - 1 := by
              rw [fits, Nat.pow_succ]
              omega
  · have none : q.initial.stack = [] := by simp [initial, known]
    rw [after_of_settled (n := 0) none (Nat.zero_le _)]
    exact none

theorem final_grows (ends : q.Terminates) (n : Nat) : Grows (q.after n) q.final := by
  have settled := final_settled ends
  rw [final_eq_after] at settled ⊢
  rcases Nat.le_total n (2 ^ q.rounds - 1) with earlier | later
  · exact q.after_grows earlier
  · rw [after_of_settled settled later]
    exact .refl _

end Query

end WordWalk
