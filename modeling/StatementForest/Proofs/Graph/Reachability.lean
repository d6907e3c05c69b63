import Mathlib.Logic.Relation
import StatementForest.Graph.Digraph

/-!
# What the search of a graph reaches

The search adds, round by round, the targets of all edges from what it has seen.  A round that
adds nothing leaves a set that no edge leads out of.  Every other round adds a node, so there are
not more of them than nodes, and what is found at the end is all that the edges lead to.

Main results:

- Theorem `Digraph.closed_reachWithin`: after one round for each unseen node no edge leads out.
- Theorem `Digraph.mem_reach_iff`: the search finds what the edges lead to, and nothing else.
-/

namespace StatementForest
namespace Digraph

variable {g : Digraph} {u v w steps : Nat} {seen : List Nat}

/-- An edge leads from one node to another. -/
def Links (g : Digraph) (v w : Nat) : Prop := (v, w) ∈ g.edges

/-- All edges are between nodes of the graph. -/
def Bounded (g : Digraph) : Prop := ∀ v w, g.Links v w → v < g.order ∧ w < g.order

/-- No edge leads out of a set of nodes. -/
def Closed (g : Digraph) (seen : List Nat) : Prop := ∀ v ∈ seen, ∀ w, g.Links v w → w ∈ seen

/-- The nodes are the numbers below the order of the graph. -/
theorem mem_nodes : v ∈ g.nodes ↔ v < g.order := List.mem_range

/-- The successors of a node are those that an edge leads to. -/
theorem mem_successors : w ∈ g.successors v ↔ g.Links v w := by
  simp [successors, Links]

/-- The predecessors of a node are those that an edge leads from. -/
theorem mem_predecessors : v ∈ g.predecessors w ↔ g.Links v w := by
  simp [predecessors, Links]

/-! ## Rounds of the search -/

/-- The frontier is what edges lead to from the nodes that were seen. -/
theorem mem_frontier : w ∈ g.frontier seen ↔ (∃ v ∈ seen, g.Links v w) ∧ w ∉ seen := by
  simp only [frontier, List.mem_eraseDups, List.mem_map, List.mem_filter, Bool.and_eq_true,
    Bool.not_eq_true', List.contains_eq_mem, decide_eq_true_eq, decide_eq_false_iff_not, Links]
  constructor
  · rintro ⟨⟨v, w⟩, ⟨hlink, hv, hw⟩, rfl⟩
    exact ⟨⟨v, hv, hlink⟩, hw⟩
  · rintro ⟨⟨v, hv, hlink⟩, hw⟩
    exact ⟨(v, w), ⟨hlink, hv, hw⟩, rfl⟩

/-- A round that adds nothing has come to the end. -/
theorem closed_of_frontier_eq_nil (h : g.frontier seen = []) : g.Closed seen := by
  intro v hv w hlink
  refine Decidable.byContradiction fun hw => ?_
  have hmem : w ∈ g.frontier seen := mem_frontier.mpr ⟨⟨v, hv, hlink⟩, hw⟩
  rw [h] at hmem
  cases hmem

/-- The nodes that the search has not come to. -/
def unseen (g : Digraph) (seen : List Nat) : List Nat := g.nodes.filter (!seen.contains ·)

/-- A round that adds something leaves less to be seen. -/
theorem length_unseen_lt (hg : g.Bounded) (h : g.frontier seen ≠ []) :
    (g.unseen (seen ++ g.frontier seen)).length < (g.unseen seen).length := by
  obtain ⟨w, hw⟩ := List.exists_mem_of_ne_nil _ h
  obtain ⟨⟨v, -, hlink⟩, hnot⟩ := mem_frontier.mp hw
  have hsplit : g.unseen (seen ++ g.frontier seen) =
      (g.unseen seen).filter (!(g.frontier seen).contains ·) := by
    rw [unseen, unseen, List.filter_filter]
    refine List.filter_congr fun u _ => ?_
    rw [List.contains_append, Bool.not_or, Bool.and_comm]
  rw [hsplit, List.length_filter_lt_length_iff_exists]
  refine ⟨w, List.mem_filter.mpr ⟨mem_nodes.mpr (hg v w hlink).2, ?_⟩, ?_⟩
  · simpa using hnot
  · simpa using hw

/-- After a round for each node that was not seen, no edge leads out. -/
theorem closed_reachWithin (hg : g.Bounded) (h : (g.unseen seen).length ≤ steps) :
    g.Closed (g.reachWithin steps seen) := by
  induction steps generalizing seen with
  | zero =>
    have hnil : g.unseen seen = [] := List.eq_nil_of_length_eq_zero (Nat.le_zero.mp h)
    intro v _ w hlink
    refine Decidable.byContradiction fun hw => ?_
    have hmem : w ∈ g.unseen seen :=
      List.mem_filter.mpr ⟨mem_nodes.mpr (hg v w hlink).2, by simpa [reachWithin] using hw⟩
    rw [hnil] at hmem
    cases hmem
  | succ steps ih =>
    rw [reachWithin]
    split
    · next hempty => exact closed_of_frontier_eq_nil (List.isEmpty_iff.mp hempty)
    · next hmore =>
      have hlt := length_unseen_lt hg fun hnil => hmore (List.isEmpty_iff.mpr hnil)
      exact ih (by omega)

/-- The search comes only to what edges lead to. -/
theorem linked_of_mem_reachWithin (h : w ∈ g.reachWithin steps seen) :
    ∃ v ∈ seen, Relation.ReflTransGen g.Links v w := by
  induction steps generalizing seen with
  | zero => exact ⟨w, h, .refl⟩
  | succ steps ih =>
    rw [reachWithin] at h
    split at h
    · exact ⟨w, h, .refl⟩
    · obtain ⟨v, hv, hpath⟩ := ih h
      obtain hv | hv := List.mem_append.mp hv
      · exact ⟨v, hv, hpath⟩
      · obtain ⟨⟨u, hu, hlink⟩, -⟩ := mem_frontier.mp hv
        exact ⟨u, hu, .head hlink hpath⟩

/-- What is closed holds all that its nodes lead to. -/
theorem Closed.mem_of_linked (h : g.Closed seen) (hv : v ∈ seen)
    (hpath : Relation.ReflTransGen g.Links v w) : w ∈ seen := by
  induction hpath with
  | refl => exact hv
  | tail _ hlink ih => exact h _ ih _ hlink

/-! ## The whole search -/

/-- Edges lead from a node of the graph to nodes of the graph. -/
theorem Bounded.lt_of_linked (hg : g.Bounded) (hv : v < g.order)
    (hpath : Relation.ReflTransGen g.Links v w) : w < g.order := by
  induction hpath with
  | refl => exact hv
  | tail _ hlink _ => exact (hg _ _ hlink).2

/-- The search finds all that edges lead to from a node, and nothing else. -/
theorem mem_reach_iff (hg : g.Bounded) (hv : v < g.order) :
    w ∈ g.reach v ↔ Relation.ReflTransGen g.Links v w := by
  have hfilter : w ∈ g.reach v ↔ w < g.order ∧ w ∈ g.reachWithin g.order [v] := by
    rw [reach, List.mem_filter, mem_nodes, List.contains_iff_mem]
  have hrounds : (g.unseen [v]).length ≤ g.order :=
    Nat.le_trans (List.length_filter_le _ _) (Nat.le_of_eq List.length_range)
  rw [hfilter]
  constructor
  · rintro ⟨-, hw⟩
    obtain ⟨v', hv', hpath⟩ := linked_of_mem_reachWithin hw
    rwa [List.mem_singleton.mp hv'] at hpath
  · intro hpath
    have hstart : v ∈ g.reachWithin g.order [v] :=
      g.subset_reachWithin _ _ (List.mem_singleton_self v)
    exact ⟨hg.lt_of_linked hv hpath, (closed_reachWithin hg hrounds).mem_of_linked hstart hpath⟩

/-- A ring of three nodes is reached as a whole. -/
example : reach ⟨4, [(0, 1), (1, 2), (2, 0)]⟩ 1 = [0, 1, 2] := by decide

end Digraph
end StatementForest
