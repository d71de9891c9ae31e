import Std.Data.TreeSet

/-! # Saturation under a successor function

`saturate` collects everything that can be reached from a list of pending elements
by following successors. An element is expanded once, so one unit of fuel for each
element that is ever pending is enough. Whether successors that are collected already
become pending once more is up to the caller.
-/

namespace WordWalk

/-- Takes the pending elements one by one, until none is left or the fuel is spent. A new one is
    collected and pushes elements of its own, the last of which is taken next. -/
def saturate {α : Type} [Ord α] (push : Std.TreeSet α → α → List α) :
    Nat → List α → Std.TreeSet α → Std.TreeSet α
  | 0, _, seen => seen
  | _ + 1, [], seen => seen
  | fuel + 1, a :: pending, seen =>
      if a ∈ seen then saturate push fuel pending seen
      else
        let seen := seen.insert a
        saturate push fuel ((push seen a).reverse ++ pending) seen

end WordWalk
