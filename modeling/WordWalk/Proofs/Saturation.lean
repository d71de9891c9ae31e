import Mathlib.Algebra.GroupWithZero.Nat
import Mathlib.Logic.Relation
import WordWalk.Saturation

/-! # What saturation collects

The loop behind saturation, fuel aside, either ends or goes on for ever. Fuel for the pending
elements and for the successors of everything that is not collected yet is enough for it
to end. What it ends with is read off the loop: every successor of a collected element is
collected itself or pending, so nothing is missed once no element is pending.
-/

namespace WordWalk.Saturation

variable {α : Type}

/-- Some walk along successors leads from one element to the other. -/
def Leads (next : α → List α) : α → α → Prop := Relation.ReflTransGen fun a b => b ∈ next a

theorem leads_iff_eq {next : α → List α} {a b : α} (none : next a = []) : Leads next a b ↔ b = a := by
  constructor
  · intro led
    rcases Relation.ReflTransGen.cases_head led with same | ⟨c, first, _⟩
    · exact same.symm
    · rw [none] at first
      cases first
  · rintro rfl
    exact .refl

variable [Ord α]

/-- The loop, with these elements pending and collected, comes to an end with that collection. -/
inductive Ends (push : Std.TreeSet α → α → List α) :
    List α → Std.TreeSet α → Std.TreeSet α → Prop
  | done {seen} : Ends push [] seen seen
  | drop {a rest seen result} (old : a ∈ seen) (later : Ends push rest seen result) :
      Ends push (a :: rest) seen result
  | expand {a rest seen result} (fresh : a ∉ seen)
      (later : Ends push ((push (seen.insert a) a).reverse ++ rest) (seen.insert a) result) :
      Ends push (a :: rest) seen result

/-- An element pushes its successors, some that are collected already perhaps left out. -/
structure Pushes (push : Std.TreeSet α → α → List α) (next : α → List α) : Prop where
  sublist : ∀ seen a, (push seen a).Sublist (next a)
  complete : ∀ seen a, ∀ b ∈ next a, b ∈ seen ∨ b ∈ push seen a

theorem Pushes.all (next : α → List α) : Pushes (fun _ => next) next :=
  ⟨fun _ a => List.Sublist.refl (next a), fun _ _ _ => .inr⟩

theorem Pushes.fresh (next : α → List α) : Pushes (fun seen a => (next a).filter (· ∉ seen)) next where
  sublist _ _ := List.filter_sublist
  complete seen _ b member := by
    by_cases old : b ∈ seen
    · exact .inl old
    · exact .inr (List.mem_filter.mpr ⟨member, decide_eq_true old⟩)

/-- The successors of the collected elements are collected or pending. -/
def Frontier (next : α → List α) (pending : List α) (seen : Std.TreeSet α) : Prop :=
  ∀ a ∈ seen, ∀ b ∈ next a, b ∈ seen ∨ b ∈ pending

/-- How many successors the sources that are not collected yet will make pending. -/
def weight (next : α → List α) (sources : List α) (seen : Std.TreeSet α) : Nat :=
  (sources.map fun a => if a ∈ seen then 0 else (next a).length).sum

theorem Frontier.drop {next : α → List α} {a : α} {rest : List α} {seen : Std.TreeSet α}
    (h : Frontier next (a :: rest) seen) (old : a ∈ seen) : Frontier next rest seen := by
  intro b hb c hc
  rcases h b hb c hc with hc | hc
  · exact .inl hc
  · rcases List.mem_cons.mp hc with rfl | hc
    · exact .inl old
    · exact .inr hc

variable [Std.TransOrd α] [Std.LawfulEqOrd α]

theorem mem_insert {seen : Std.TreeSet α} {a b : α} : b ∈ seen.insert a ↔ b = a ∨ b ∈ seen := by
  rw [Std.TreeSet.mem_insert, Std.compare_eq_iff_eq]
  exact or_congr_left eq_comm

theorem weight_insert_le (next : α → List α) (sources : List α) (seen : Std.TreeSet α) (a : α) :
    weight next sources (seen.insert a) ≤ weight next sources seen := by
  induction sources with
  | nil => exact Nat.le_refl 0
  | cons s rest ih =>
      have share : (if s ∈ seen.insert a then 0 else (next s).length) ≤
          if s ∈ seen then 0 else (next s).length := by
        split
        · exact Nat.zero_le _
        · rename_i fresh
          exact Nat.le_of_eq (if_neg fun old => fresh (mem_insert.mpr (.inr old))).symm
      simp only [weight, List.map_cons, List.sum_cons] at ih ⊢
      omega

theorem weight_insert (next : α → List α) {sources : List α} {seen : Std.TreeSet α} {a : α}
    (source : a ∈ sources) (fresh : a ∉ seen) :
    weight next sources (seen.insert a) + (next a).length ≤ weight next sources seen := by
  induction sources with
  | nil => simp at source
  | cons s rest ih =>
      have smaller := weight_insert_le next rest seen a
      simp only [weight, List.map_cons, List.sum_cons] at ih smaller ⊢
      by_cases same : s = a
      · subst s
        rw [if_pos (mem_insert.mpr (.inl rfl)), if_neg fresh]
        omega
      · have later := ih ((List.mem_cons.mp source).resolve_left (Ne.symm same))
        have kept : s ∈ seen.insert a ↔ s ∈ seen := mem_insert.trans (or_iff_right same)
        simp only [kept]
        omega

variable {push : Std.TreeSet α → α → List α} {next : α → List α}

/-- With enough fuel saturation is the loop taken to its end. -/
theorem ends_saturate (pushes : Pushes push next) {sources : List α}
    (outside : ∀ a, a ∉ sources → next a = []) {fuel : Nat} {pending : List α} {seen : Std.TreeSet α}
    (enough : pending.length + weight next sources seen ≤ fuel) :
    Ends push pending seen (saturate push fuel pending seen) := by
  induction fuel generalizing pending seen with
  | zero =>
      obtain rfl : pending = [] := List.length_eq_zero_iff.mp (by omega)
      exact .done
  | succ fuel ih =>
      cases pending with
      | nil => exact .done
      | cons a rest =>
          simp only [saturate]
          simp only [List.length_cons] at enough
          split
          · rename_i old
            exact .drop old (ih (by omega))
          · rename_i fresh
            -- the successors come out of the weight if there are any, so the fuel still suffices
            have pushed := (pushes.sublist (seen.insert a) a).length_le
            have budget : ((push (seen.insert a) a).reverse ++ rest).length +
                weight next sources (seen.insert a) ≤ fuel := by
              rw [List.length_append, List.length_reverse]
              by_cases source : a ∈ sources
              · have := weight_insert next source fresh
                omega
              · have := weight_insert_le next sources seen a
                simp only [outside a source, List.length_nil] at pushed
                omega
            exact .expand fresh (ih budget)

theorem Frontier.expand (pushes : Pushes push next) {a : α} {rest : List α} {seen : Std.TreeSet α}
    (h : Frontier next (a :: rest) seen) :
    Frontier next ((push (seen.insert a) a).reverse ++ rest) (seen.insert a) := by
  intro b hb c hc
  rw [List.mem_append, List.mem_reverse]
  rcases mem_insert.mp hb with rfl | hb
  · exact (pushes.complete _ b c hc).imp_right .inl
  · rw [mem_insert]
    rcases h b hb c hc with hc | hc
    · exact .inl (.inr hc)
    · rcases List.mem_cons.mp hc with rfl | hc
      · exact .inl (.inl rfl)
      · exact .inr (.inr hc)

namespace Ends

variable {pending : List α} {seen result : Std.TreeSet α}

theorem led (pushes : Pushes push next) (h : Ends push pending seen result) {x : α} (member : x ∈ result) :
    x ∈ seen ∨ ∃ a ∈ pending, Leads next a x := by
  induction h with
  | done => exact .inl member
  | drop _ _ ih =>
      refine (ih member).imp_right fun ⟨b, hb, led⟩ => ?_
      exact ⟨b, List.mem_cons_of_mem _ hb, led⟩
  | @expand a rest seen result _ _ ih =>
      rcases ih member with old | ⟨b, hb, led⟩
      · rcases mem_insert.mp old with rfl | old
        · exact .inr ⟨x, List.mem_cons_self, .refl⟩
        · exact .inl old
      · rcases List.mem_append.mp hb with hb | hb
        · have step := (pushes.sublist _ a).mem (List.mem_reverse.mp hb)
          exact .inr ⟨a, List.mem_cons_self, .head step led⟩
        · exact .inr ⟨b, List.mem_cons_of_mem a hb, led⟩

/-- In the end everything pending is collected together with all that it leads to. -/
theorem closed (pushes : Pushes push next) (h : Ends push pending seen result)
    (frontier : Frontier next pending seen) :
    Frontier next [] result ∧ ∀ a, a ∈ seen ∨ a ∈ pending → a ∈ result := by
  induction h with
  | done => exact ⟨frontier, by simp⟩
  | drop old _ ih =>
      obtain ⟨done, all⟩ := ih (frontier.drop old)
      refine ⟨done, fun b hb => all b ?_⟩
      rcases hb with hb | hb
      · exact .inl hb
      · rcases List.mem_cons.mp hb with rfl | hb
        · exact .inl old
        · exact .inr hb
  | expand _ _ ih =>
      obtain ⟨done, all⟩ := ih (frontier.expand pushes)
      refine ⟨done, fun b hb => all b ?_⟩
      rw [mem_insert, List.mem_append]
      rcases hb with hb | hb
      · exact .inl (.inr hb)
      · rcases List.mem_cons.mp hb with rfl | hb
        · exact .inl (.inl rfl)
        · exact .inr (.inr hb)

/-- The loop started with a single element collects exactly what the element leads to. -/
theorem mem_iff_leads (pushes : Pushes push next) {a x : α} (h : Ends push [a] ∅ result) :
    x ∈ result ↔ Leads next a x := by
  constructor
  · intro member
    rcases h.led pushes member with none | ⟨b, hb, led⟩
    · simp at none
    · rwa [List.mem_singleton.mp hb] at led
  · intro led
    have nothing : Frontier next [a] (∅ : Std.TreeSet α) := by intro b hb; simp at hb
    obtain ⟨done, all⟩ := h.closed pushes nothing
    induction led with
    | refl => exact all a (.inr List.mem_cons_self)
    | tail _ last ih => exact (done _ ih _ last).resolve_right (by simp)

end Ends

/-- Fuel for the element and for the successors of all sources is enough to start with one element. -/
theorem ends_single (pushes : Pushes push next) (sources : List α) (outside : ∀ a, a ∉ sources → next a = [])
    {fuel : Nat} (enough : (sources.map fun a => (next a).length).sum < fuel) (a : α) :
    Ends push [a] ∅ (saturate push fuel [a] ∅) := by
  apply ends_saturate pushes outside
  simp only [weight, Std.TreeSet.not_mem_emptyc, if_false, List.length_singleton]
  omega

end WordWalk.Saturation
