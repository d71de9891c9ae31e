import WordWalk.Proofs.SearchTruncation
import WordWalk.Run

/-! # Searches that go round in circles

A search without limits follows every walk, which it can only do if no walk away from the
target comes back to a node. With any limit it ends on every graph, and so does
every search that the command line asks for.
-/

namespace WordWalk.Query

variable {q : Query}

theorem terminates_of_depth {depth : Nat}
    (short : ∀ t, q.Reaches t → q.limits.Admits t.labels.length → t.labels.length ≤ depth) :
    q.Terminates :=
  ⟨_, List.isEmpty_iff.mpr (settled_of_depth short (Nat.le_refl _))⟩

theorem terminates_of_maxStates {limit : Nat} (bound : q.limits.maxStates = some limit) : q.Terminates :=
  ⟨_, List.isEmpty_iff.mpr (settled_of_maxStates bound (Nat.le_refl _))⟩

theorem terminates_of_maxLength {limit : Nat} (bound : q.limits.maxLength = some limit) : q.Terminates :=
  terminates_of_depth fun _ _ admitted => admitted limit bound

theorem terminates_of_straight (straight : ¬ q.Circles) : q.Terminates :=
  terminates_of_depth fun _ reached _ => reached.length_le_of_straight straight

theorem terminates_of_unknown (unknown : q.source ∉ q.graph) : q.Terminates :=
  ⟨0, by simp [after, initial, unknown, Progress.isSettled]⟩

theorem terminates_iff_final : q.Terminates ↔ q.final.isSettled = true := by
  constructor
  · intro ends
    exact List.isEmpty_iff.mpr (final_settled ends)
  · intro settled
    exact ⟨_, final_eq_after q ▸ settled⟩

/-- A search ends with any limit, and without limits exactly if the graph does not have the
    source or no walk away from the target meets a node twice. The rounds that a search
    takes bring it to its end whenever it has one. -/
theorem terminates_exactly (q : Query) :
    (q.limits.maxStates ≠ none ∨ q.limits.maxLength ≠ none → q.Terminates) ∧
    (∀ (o : Options) graph index, (o.query graph index).Terminates) ∧
    (q.limits = .unbounded → (q.Terminates ↔ q.source ∉ q.graph ∨ ¬ q.Circles)) ∧
    (q.Terminates ↔ q.final.isSettled = true) := by
  refine ⟨?_, ?_, ?_, terminates_iff_final⟩
  · rintro (states | length)
    · obtain ⟨limit, bound⟩ := Option.ne_none_iff_exists'.mp states
      exact terminates_of_maxStates bound
    · obtain ⟨limit, bound⟩ := Option.ne_none_iff_exists'.mp length
      exact terminates_of_maxLength bound
  · intro o graph index
    exact terminates_of_maxStates rfl
  · intro unbounded
    constructor
    · intro ends
      by_cases known : q.source ∈ q.graph
      · exact .inr (straight_of_terminates ends known (by rw [unbounded]; rfl) (by rw [unbounded]; rfl))
      · exact .inl known
    · rintro (unknown | straight)
      · exact terminates_of_unknown unknown
      · exact terminates_of_straight straight

theorem endless_loops : loops.unlimited.Circles ∧ ¬ loops.unlimited.Terminates := by
  have known : loops.source ∈ loops.graph := by decide +kernel
  have around : loops.unlimited.Reaches ((Trail.start "s").extend ⟨"s", "a"⟩) := by
    apply Reaches.extend .start
    · decide
    · decide +kernel
  have circles : loops.unlimited.Circles := ⟨_, reaches_iff_walk.mp around, by decide, by decide⟩
  refine ⟨circles, fun ends => ?_⟩
  obtain ⟨_, _, unbounded, _⟩ := terminates_exactly loops.unlimited
  rcases (unbounded rfl).mp ends with unknown | straight
  · exact unknown known
  · exact straight circles

end WordWalk.Query
