import Mathlib.Algebra.BigOperators.Group.Finset.Piecewise
import Mathlib.Algebra.GroupWithZero.Nat
import WordWalk.Graph

/-! # Graphs and what was added to them

A graph is made by adding nodes and edges one by one. All that is left of the order in which this
happened is, for every node, the order of the edges that were added from it. So additions
from different nodes may change places.
-/

namespace WordWalk

namespace Graph

variable {g h : Graph} {node other : String}

/-! ## Entries -/

theorem getElem?_adjacency (g : Graph) (node : String) :
    g.adjacency[node]? = if node ∈ g then some (g.edges node) else none := by
  split
  · next inside => exact Std.ExtTreeMap.getElem?_eq_some_getD inside
  · next outside => exact Std.ExtTreeMap.getElem?_eq_none outside

/-- A graph is known from its entries and the edges of every node. -/
theorem eq_iff : g = h ↔ (∀ node, node ∈ g ↔ node ∈ h) ∧ ∀ node, g.edges node = h.edges node := by
  constructor
  · intro same
    subst same
    exact ⟨fun _ => Iff.rfl, fun _ => rfl⟩
  · intro ⟨entries, edges⟩
    have adjacency : g.adjacency = h.adjacency := by
      apply Std.ExtTreeMap.ext_getElem?
      intro node
      simp only [getElem?_adjacency, entries, edges]
    cases g
    cases h
    exact congrArg Graph.mk adjacency

theorem edges_of_outside (outside : node ∉ g) : g.edges node = [] :=
  Std.ExtTreeMap.getD_eq_fallback outside

theorem edges_of_entry {entry : String × List Edge} (member : entry ∈ g.toList) :
    g.edges entry.1 = entry.2 := by
  rw [edges, Std.ExtTreeMap.getD_eq_getD_getElem?,
    Std.ExtTreeMap.mem_toList_iff_getElem?_eq_some.mp member]
  rfl

theorem sum_successors (g : Graph) :
    (g.adjacency.keys.map fun node => (g.successors node).length).sum = g.edgeCount := by
  rw [edgeCount, ← List.foldr_map, ← List.sum_eq_foldr, ← Std.ExtTreeMap.map_fst_toList_eq_keys,
    List.map_map]
  congr 1
  apply List.map_congr_left
  intro entry member
  rw [Function.comp_apply, successors, List.length_map, edges_of_entry member]

theorem edgeCount_eq_sum {nodes : Finset String} (all : ∀ node ∈ g, node ∈ nodes) :
    g.edgeCount = ∑ node ∈ nodes, (g.edges node).length := by
  have keys : g.edgeCount = ∑ node ∈ g.adjacency.keys.toFinset, (g.edges node).length := by
    rw [List.sum_toFinset _ Std.ExtTreeMap.nodup_keys, ← sum_successors]
    simp only [successors, List.length_map]
  rw [keys]
  apply Finset.sum_subset
  · intro node member
    exact all node (Std.ExtTreeMap.mem_keys.mp (List.mem_toFinset.mp member))
  · intro node _ unlisted
    have outside : node ∉ g := fun inside =>
      unlisted (List.mem_toFinset.mpr (Std.ExtTreeMap.mem_keys.mpr inside))
    rw [edges_of_outside outside, List.length_nil]

theorem nodeCount_eq_card {nodes : Finset String} (same : ∀ node, node ∈ nodes ↔ node ∈ g) :
    g.nodeCount = nodes.card := by
  have keys : nodes = g.adjacency.keys.toFinset := by
    apply Finset.ext
    intro node
    rw [same, List.mem_toFinset]
    exact Std.ExtTreeMap.mem_keys.symm
  rw [keys, List.toFinset_card_of_nodup Std.ExtTreeMap.nodup_keys]
  exact Std.ExtTreeMap.length_keys.symm

/-! ## One addition -/

/-- A node without an entry has no edges, so an entry without edges does not change them. -/
theorem edges_addNode (g : Graph) (node other : String) : (g.addNode node).edges other = g.edges other := by
  rw [Graph.edges, addNode, Std.ExtTreeMap.getD_insertIfNew]
  split
  · rename_i new
    obtain ⟨same, outside⟩ := new
    obtain rfl := Std.LawfulEqCmp.compare_eq_iff_eq.mp same
    exact (edges_of_outside outside).symm
  · rfl

theorem mem_addNode {g : Graph} {node other : String} : other ∈ g.addNode node ↔ node = other ∨ other ∈ g :=
  Std.ExtTreeMap.mem_insertIfNew.trans (or_congr_left Std.LawfulEqCmp.compare_eq_iff_eq)

theorem edges_addEdge (g : Graph) (source target label other : String) :
    (g.addEdge source target label).edges other =
      g.edges other ++ if source = other then [⟨target, label⟩] else [] := by
  rw [Graph.edges, addEdge, Std.ExtTreeMap.getD_insert]
  by_cases same : source = other
  · rw [if_pos same, if_pos (Std.LawfulEqCmp.compare_eq_iff_eq.mpr same), same]
  · rw [if_neg same, if_neg (mt Std.LawfulEqCmp.compare_eq_iff_eq.mp same), List.append_nil]
    rfl

theorem mem_addEdge {source target label : String} :
    other ∈ g.addEdge source target label ↔ source = other ∨ other ∈ g :=
  Std.ExtTreeMap.mem_insert.trans (or_congr_left Std.LawfulEqCmp.compare_eq_iff_eq)

end Graph

inductive Addition where
  | node (name : String)
  | edge (source target label : String)
  deriving DecidableEq, Repr

namespace Addition

/-- The node that gets an entry, unless it has one. -/
def source : Addition → String
  | node name => name
  | edge source _ _ => source

def edge? : Addition → Option Edge
  | node _ => none
  | edge _ target label => some ⟨target, label⟩

/-- The edges that are added from a node, in their order. -/
def leaving (node : String) (added : List Addition) : List Edge :=
  (added.filter (·.source = node)).filterMap edge?

variable {added : List Addition} {node source target label : String}

theorem leaving_append (node : String) (added later : List Addition) :
    leaving node (added ++ later) = leaving node added ++ leaving node later := by
  rw [leaving, List.filter_append, List.filterMap_append]
  rfl

theorem mem_leaving : ⟨target, label⟩ ∈ leaving source added ↔ edge source target label ∈ added := by
  rw [leaving, List.mem_filterMap]
  constructor
  · intro ⟨a, kept, found⟩
    obtain ⟨member, same⟩ := List.mem_filter.mp kept
    cases a with
    | node => cases found
    | edge =>
        cases found
        exact of_decide_eq_true same ▸ member
  · intro member
    exact ⟨_, List.mem_filter.mpr ⟨member, decide_eq_true rfl⟩, rfl⟩

end Addition

namespace Graph

open Addition (leaving)

variable {g : Graph} {node : String}

def add (g : Graph) : Addition → Graph
  | .node name => g.addNode name
  | .edge source target label => g.addEdge source target label

theorem edges_add (g : Graph) (a : Addition) (node : String) :
    (g.add a).edges node = g.edges node ++ leaving node [a] := by
  cases a with
  | node name =>
      rw [add, edges_addNode]
      by_cases same : name = node <;> simp [leaving, Addition.source, Addition.edge?, same]
  | edge source target label =>
      rw [add, edges_addEdge]
      by_cases same : source = node <;> simp [leaving, Addition.source, Addition.edge?, same]

theorem mem_add {a : Addition} : node ∈ g.add a ↔ a.source = node ∨ node ∈ g := by
  cases a with
  | node => exact mem_addNode
  | edge => exact mem_addEdge

theorem edgeCount_add (g : Graph) (a : Addition) :
    (g.add a).edgeCount = g.edgeCount + a.edge?.toList.length := by
  let nodes := insert a.source g.adjacency.keys.toFinset
  have old : ∀ node ∈ g, node ∈ nodes := by
    intro node inside
    apply Finset.mem_insert_of_mem
    exact List.mem_toFinset.mpr (Std.ExtTreeMap.mem_keys.mpr inside)
  have all : ∀ node ∈ g.add a, node ∈ nodes := by
    intro node inside
    cases mem_add.mp inside with
    | inl same => exact same ▸ Finset.mem_insert_self _ _
    | inr inside => exact old node inside
  have one (node : String) : (leaving node [a]).length = if a.source = node then a.edge?.toList.length else 0 := by
    by_cases same : a.source = node
    · cases a <;> simp_all [leaving, Addition.edge?]
    · simp [leaving, same]
  rw [edgeCount_eq_sum all, edgeCount_eq_sum old]
  simp only [edges_add, List.length_append, Finset.sum_add_distrib, one]
  rw [Finset.sum_ite_eq, if_pos (Finset.mem_insert_self _ _)]

/-! ## All additions -/

/-- The graph that additions make, the oldest first. -/
def build (added : List Addition) : Graph := added.foldl add ∅

theorem build_concat (added : List Addition) (a : Addition) : build (added ++ [a]) = (build added).add a := by
  rw [build, List.foldl_append]
  rfl

theorem edges_build (added : List Addition) (node : String) : (build added).edges node = leaving node added := by
  induction added using List.reverseRecOn with
  | nil => exact edges_of_outside Std.ExtTreeMap.not_mem_empty
  | append_singleton added a ih => rw [build_concat, edges_add, ih, Addition.leaving_append]

theorem mem_build {added : List Addition} : node ∈ build added ↔ node ∈ added.map Addition.source := by
  induction added using List.reverseRecOn with
  | nil => exact iff_of_false Std.ExtTreeMap.not_mem_empty List.not_mem_nil
  | append_singleton added a ih =>
      rw [build_concat, mem_add, ih, List.map_append, List.mem_append, List.map_singleton, List.mem_singleton,
        eq_comm, or_comm]

theorem edgeCount_build (added : List Addition) :
    (build added).edgeCount = (added.filterMap Addition.edge?).length := by
  induction added using List.reverseRecOn with
  | nil => rfl
  | append_singleton added a ih =>
      rw [build_concat, edgeCount_add, ih, List.filterMap_append, List.length_append]
      cases a <;> rfl

theorem nodeCount_build (added : List Addition) :
    (build added).nodeCount = (added.map Addition.source).dedup.length := by
  rw [← List.card_toFinset]
  apply nodeCount_eq_card
  intro node
  rw [List.mem_toFinset, mem_build]

theorem hasEdge_build {added : List Addition} {source target label : String} :
    (build added).hasEdge source target label = true ↔ Addition.edge source target label ∈ added := by
  rw [hasEdge, List.contains_iff_mem, edges_build, Addition.mem_leaving]

theorem build_eq_iff {added other : List Addition} :
    build added = build other ↔
      (∀ node, node ∈ added.map Addition.source ↔ node ∈ other.map Addition.source) ∧
        ∀ node, leaving node added = leaving node other := by
  simp only [eq_iff, mem_build, edges_build]

theorem ofEdges_eq_build (triples : List (String × String × String)) :
    ofEdges triples = build (triples.map fun (source, target, label) => .edge source target label) := by
  rw [build, List.foldl_map]
  rfl

/-- Edges from different nodes are not compared with each other. -/
theorem leaving_swap {a b : Addition} (apart : a.source ≠ b.source) (node : String) (front back : List Addition) :
    leaving node (front ++ a :: b :: back) = leaving node (front ++ b :: a :: back) := by
  have two : leaving node [a, b] = leaving node [b, a] := by
    by_cases first : a.source = node
    · have second : b.source ≠ node := fun same => apart (first.trans same.symm)
      simp [leaving, first, second]
    · by_cases second : b.source = node <;> simp [leaving, first, second]
  have split (x y : Addition) : leaving node (front ++ x :: y :: back) =
      leaving node front ++ (leaving node [x, y] ++ leaving node back) := by
    rw [← Addition.leaving_append, ← Addition.leaving_append]
    rfl
  rw [split, split, two]

/-- A graph is its entries and, for every node, the edges that were added from it. Everything that can
    be asked of it is answered by these, whatever the additions were between each other. -/
theorem build_remembers (added : List Addition) :
    (∀ other, build added = build other ↔
      (∀ node, node ∈ added.map Addition.source ↔ node ∈ other.map Addition.source) ∧
        ∀ node, leaving node added = leaving node other) ∧
    (∀ node, (build added).edges node = leaving node added) ∧
    (∀ node, node ∈ build added ↔ node ∈ added.map Addition.source) ∧
    (∀ source target label,
      (build added).hasEdge source target label = true ↔ Addition.edge source target label ∈ added) ∧
    (build added).edgeCount = (added.filterMap Addition.edge?).length ∧
    (build added).nodeCount = (added.map Addition.source).dedup.length ∧
    (∀ triples : List (String × String × String), ofEdges triples =
      build (triples.map fun (source, target, label) => .edge source target label)) ∧
    ∀ a b back, a.source ≠ b.source → build (added ++ a :: b :: back) = build (added ++ b :: a :: back) := by
  refine ⟨fun _ => build_eq_iff, edges_build added, fun _ => mem_build, fun _ _ _ => hasEdge_build,
    edgeCount_build added, nodeCount_build added, ofEdges_eq_build, ?_⟩
  intro a b back apart
  rw [build_eq_iff]
  constructor
  · intro node
    apply List.Perm.mem_iff
    exact ((List.Perm.swap b a back).append_left added).map Addition.source
  · intro node
    exact leaving_swap apart node added back

/-- Edges from two nodes may change places, edges from one node may not. -/
theorem build_remembers_order :
    build [.edge "A" "B" "x", .edge "B" "A" "y", .node "A"] =
      build [.edge "B" "A" "y", .edge "A" "B" "x", .node "A"] ∧
    build [.edge "A" "B" "x", .edge "A" "B" "y"] ≠ build [.edge "A" "B" "y", .edge "A" "B" "x"] := by
  obtain ⟨-, -, -, -, -, -, -, swaps⟩ := build_remembers []
  obtain ⟨same, -⟩ := build_remembers [.edge "A" "B" "x", .edge "A" "B" "y"]
  constructor
  · exact swaps _ _ [.node "A"] (by decide)
  · intro equal
    exact absurd (((same _).mp equal).2 "A") (by decide)

end Graph

end WordWalk
