import WordWalk.Proofs.SearchReport

/-! # When a search was held back

The recorded states are states of the query, and all of them unless a new one turned up
that could not be recorded. So the number of states decides whether their bound
was used up. A search that was not held back at all takes the steps it would take without
limits.
-/

namespace WordWalk.Query

variable {q : Query} {p p' : Progress}

def key (s : String × List String) : List String := s.1 :: s.2.reverse

theorem key_injective : Function.Injective key := by
  rintro ⟨a, l⟩ ⟨b, k⟩ same
  obtain ⟨node, labels⟩ := List.cons.inj same
  exact Prod.ext node (List.reverse_inj.mp labels)

theorem key_trail (t : Trail) : key (t.node, t.labels.reverse) = t.state := by
  rw [key, List.reverse_reverse, Trail.state]

def recorded (p : Progress) : Set (String × List String) := { s | key s ∈ p.seen }

theorem mem_recorded {t : Trail} : (t.node, t.labels.reverse) ∈ recorded p ↔ t.state ∈ p.seen := by
  rw [← key_trail]
  rfl

theorem Sound.recorded_subset (h : q.Sound p) : recorded p ⊆ q.states := by
  intro s member
  obtain ⟨t, same, reached, admitted⟩ := h.seen _ member
  exact mem_states.mpr ⟨t, reached, admitted, key_injective ((key_trail t).trans same)⟩

theorem Sound.encard_recorded (h : q.Sound p) : (recorded p).encard = p.seen.size := by
  -- every entry is the key of a state, since only states of the query are recorded
  have entries : key '' recorded p = p.seen.toList.toFinset := by
    ext state
    rw [Finset.mem_coe, List.mem_toFinset, Std.TreeSet.mem_toList]
    constructor
    · rintro ⟨s, member, rfl⟩
      exact member
    · intro member
      obtain ⟨t, rfl, _⟩ := h.seen state member
      exact ⟨_, mem_recorded.mpr member, key_trail t⟩
  have distinct : p.seen.toList.Nodup := by
    have apart : p.seen.toList.Pairwise fun a b => ¬ compare a b = .eq := Std.TreeSet.distinct_toList
    exact apart.imp fun differ same => differ (Std.LawfulEqCmp.compare_eq_iff_eq.mpr same)
  rw [← key_injective.encard_image, entries, Set.encard_coe_eq_coe_finsetCard,
    List.toFinset_card_of_nodup distinct, Std.TreeSet.length_toList]

theorem Running.recorded_eq (h : q.Running p) (sound : q.Sound p) (settled : p.stack = [])
    (known : q.source ∈ q.graph) : recorded p = q.states := by
  refine Set.Subset.antisymm sound.recorded_subset fun s member => ?_
  obtain ⟨t, reached, admitted, rfl⟩ := mem_states.mp member
  exact mem_recorded.mpr (h.seen_of_reaches settled known reached (.inr admitted))

theorem Stopped.lt_encard {limit : Nat} (h : q.Stopped p limit) (sound : q.Sound p) :
    p.seen.size = limit ∧ (limit : ℕ∞) < q.states.encard := by
  have size : p.seen.size = limit := Nat.le_antisymm (sound.room limit h.bound) h.spent
  obtain ⟨t, reached, admitted, fresh⟩ := h.more
  have inside : (t.node, t.labels.reverse) ∈ q.states := mem_states.mpr ⟨t, reached, admitted, rfl⟩
  have smaller : recorded p ⊂ q.states :=
    (Set.ssubset_iff_of_subset sound.recorded_subset).mpr
      ⟨_, inside, fun member => fresh (mem_recorded.mp member)⟩
  have count : (recorded p).encard = limit := size ▸ sound.encard_recorded
  refine ⟨size, count ▸ Set.Finite.encard_lt_encard ?_ smaller⟩
  exact Set.finite_of_encard_eq_coe count

/-- There are more states than may be recorded. -/
def Exceeds (q : Query) (bound : Nat) : Prop :=
  q.limits.maxStates = some bound ∧ (bound : ℕ∞) < q.states.encard

/-- Some state has the greatest length and could be continued. -/
def Cuts (q : Query) (limit : Nat) : Prop :=
  q.limits.maxLength = some limit ∧
    ∃ s ∈ q.states, s.2.length = limit ∧ s.1 ≠ q.target ∧ q.graph.edges s.1 ≠ []

theorem Running.truncation_iff (h : q.Running p) (sound : q.Sound p) (settled : p.stack = [])
    (known : q.source ∈ q.graph) {why : Truncation} :
    p.truncation = some why ↔ ∃ limit, why = .length limit ∧ q.Cuts limit := by
  simp only [h.truncation, Cuts, ← h.recorded_eq sound settled known]
  constructor
  · rintro ⟨t, member, away, alive, limit, bound, long, rfl⟩
    obtain ⟨u, same, _, admitted⟩ := sound.seen _ member
    have labels := (Trail.state_eq_iff.mp same).2
    have length : t.labels.length = limit := Nat.le_antisymm (labels ▸ admitted limit bound) long
    have reversed : t.labels.reverse.length = limit := List.length_reverse.trans length
    exact ⟨limit, rfl, bound, _, mem_recorded.mpr member, reversed, away, alive⟩
  · rintro ⟨limit, rfl, bound, s, member, length, away, alive⟩
    obtain ⟨t, same, _⟩ := sound.seen _ member
    obtain rfl := key_injective ((key_trail t).trans same)
    refine ⟨t, mem_recorded.mp member, away, alive, limit, bound, ?_, rfl⟩
    exact (length.symm.trans List.length_reverse).le

/-- A search that ends was stopped at the number of states, or all states are recorded. -/
theorem outcome (known : q.source ∈ q.graph) (ends : q.Terminates) :
    (∃ bound, q.Exceeds bound ∧ q.final.truncation = some (.states bound) ∧
      q.final.seen.size = bound) ∨
    (∀ bound, ¬ q.Exceeds bound) ∧ (q.final.seen.size : ℕ∞) = q.states.encard ∧
      ∀ why, q.final.truncation = some why ↔ ∃ limit, why = .length limit ∧ q.Cuts limit := by
  have settled := final_settled ends
  have sound := q.sound_final
  rcases q.stage_final with running | ⟨bound, stopped⟩
  · -- whoever records all states has not recorded more than allowed
    have all : (q.final.seen.size : ℕ∞) = q.states.encard := by
      rw [← running.recorded_eq sound settled known, sound.encard_recorded]
    refine .inr ⟨fun bound ⟨set, more⟩ => ?_, all, fun why => running.truncation_iff sound settled known⟩
    rw [← all, Nat.cast_lt] at more
    exact absurd (sound.room bound set) (Nat.not_le.mpr more)
  · obtain ⟨size, more⟩ := stopped.lt_encard sound
    exact .inl ⟨bound, ⟨stopped.bound, more⟩, stopped.truncation, size⟩

def unlimited (q : Query) : Query := { q with limits := .unbounded }

theorem Move.unlimited (m : q.Move p p') (whole : p'.truncation = none) : q.unlimited.Move p p' := by
  have unbounded : ∀ {n : Nat} (limit : Nat), none = some limit → n < limit := by simp
  cases m with
  | drop next old => exact .drop next old
  | stop => cases whole
  | arrive next fresh _ there => exact .arrive (q := q.unlimited) next fresh unbounded there
  | cut => simp at whole
  | follow next fresh _ away _ =>
      exact .follow (q := q.unlimited) next fresh unbounded away (.inr unbounded)

/-- As long as nothing is left out, the search is the one without limits. -/
theorem after_unlimited {n : Nat} (whole : (q.after n).truncation = none) :
    q.unlimited.after n = q.after n := by
  have start : q.unlimited.initial = q.initial := rfl
  apply after_simulated id start (fun _ => rfl)
  intro k earlier p' m
  have next : q.after (k + 1) = p' := m.step_eq
  exact m.unlimited (next ▸ (q.after_grows earlier).whole whole)

theorem final_of_settled {n : Nat} (settled : (q.after n).stack = []) : q.final = q.after n := by
  have ends := final_settled ⟨n, List.isEmpty_iff.mpr settled⟩
  rw [final_eq_after] at ends ⊢
  rcases Nat.le_total n (2 ^ q.rounds - 1) with later | earlier
  · exact after_of_settled settled later
  · exact (after_of_settled ends earlier).symm

theorem final_unknown (unknown : q.source ∉ q.graph) : q.final = q.initial := by
  have nothing : q.initial.stack = [] := by simp [initial, unknown]
  exact final_of_settled (n := 0) nothing

/-- A search that ends and leaves nothing out ends the same way without limits. -/
theorem unlimited_final (ends : q.Terminates) (whole : q.final.truncation = none) :
    q.unlimited.Terminates ∧ q.unlimited.final = q.final := by
  have settled := final_settled ends
  rw [final_eq_after q] at settled whole ⊢
  have same := after_unlimited whole
  rw [← same] at settled ⊢
  exact ⟨⟨_, List.isEmpty_iff.mpr settled⟩, final_of_settled settled⟩

theorem warnings_report (known : q.source ∈ q.graph) (whole : q.final.truncation = none) :
    q.report.warnings = [] := by
  simp only [report, reportOn, warnings, if_pos known, whole]
  rfl

/-- A search that ends is truncated exactly when something was left out. It says that the
    number of states was used up if there are more of them, and otherwise that walks were
    cut if some could be continued. If neither is the case, its report is the one without
    limits. -/
theorem truncation_exact (known : q.source ∈ q.graph) (ends : q.Terminates) :
    (∀ bound, q.report.truncation? = some (.states bound) ↔ q.Exceeds bound) ∧
    (∀ bound, q.limits.maxStates = some bound →
      (q.report.expanded : ℕ∞) = min (bound : ℕ∞) q.states.encard) ∧
    (q.limits.maxStates = none → (q.report.expanded : ℕ∞) = q.states.encard) ∧
    ((∀ bound, ¬ q.Exceeds bound) →
      ∀ limit, q.report.truncation? = some (.length limit) ↔ q.Cuts limit) ∧
    ((∀ bound, ¬ q.Exceeds bound) → (∀ limit, ¬ q.Cuts limit) →
      q.report.warnings = [] ∧ q.report.isComplete = true ∧
        q.unlimited.Terminates ∧ q.unlimited.report = q.report) := by
  have expanded : q.report.expanded = q.final.seen.size := rfl
  rw [truncation_report known, expanded]
  rcases outcome known ends with ⟨bound, exceeds, told, size⟩ | ⟨enough, all, told⟩
  · have only : ∀ {n}, q.limits.maxStates = some n → bound = n :=
      fun set => Option.some.inj (exceeds.1.symm.trans set)
    rw [told, size]
    have spent : ¬ ∀ n, ¬ q.Exceeds n := fun enough => enough bound exceeds
    refine ⟨fun n => ⟨?_, ?_⟩, fun n set => ?_, fun unset => ?_, fun enough => absurd enough spent,
      fun enough => absurd enough spent⟩
    · rintro ⟨⟩
      exact exceeds
    · rintro ⟨set, _⟩
      rw [only set]
    · rw [← only set, min_eq_left exceeds.2.le]
    · exact absurd (exceeds.1.symm.trans unset) (by simp)
  · refine ⟨fun n => ⟨fun spent => ?_, fun exceeds => absurd exceeds (enough n)⟩, fun n set => ?_,
      fun _ => all, fun _ limit => ?_, fun _ uncut => ?_⟩
    · obtain ⟨limit, other, _⟩ := (told _).mp spent
      cases other
    · rw [all, min_eq_right]
      exact not_lt.mp fun more => enough n ⟨set, more⟩
    · rw [told]
      simp
    · have whole : q.final.truncation = none := by
        refine Option.eq_none_iff_forall_ne_some.mpr fun why cut => ?_
        obtain ⟨limit, _, cuts⟩ := (told why).mp cut
        exact uncut limit cuts
      obtain ⟨terminates, same⟩ := unlimited_final ends whole
      refine ⟨warnings_report known whole, ?_, terminates, ?_⟩
      · rw [Report.isComplete, truncation_report known, whole, Option.isNone_none]
      · exact congrArg q.reportOn same

theorem states_loops :
    loops.source ∈ loops.graph ∧ loops.Terminates ∧ loops.states.encard = 25 ∧ loops.Cuts 4 := by
  have known : loops.source ∈ loops.graph := by decide +kernel
  have ends : loops.Terminates := ⟨25, by decide +kernel⟩
  have expanded : loops.report.expanded = 25 := by decide +kernel
  have told : loops.report.truncation? = some (.length 4) := by decide +kernel
  obtain ⟨_, _, counted, cut, _⟩ := truncation_exact known ends
  refine ⟨known, ends, ?_, (cut (fun bound exceeds => ?_) 4).mp told⟩
  · rw [← counted rfl, expanded]
    rfl
  · cases exceeds.1

end WordWalk.Query
