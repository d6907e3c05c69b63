/-!
# Directed graphs

A graph on the numbers below its order.  Edges keep the order in which they were
added, and an edge that is already there is not added again.

Main results:

- `Digraph.mem_edges_connect`: what connecting two nodes does to the edges.
- `Digraph.subset_reachWithin`: nothing that was reached is lost.
-/

namespace StatementForest

/-- A directed graph on the numbers below `order`. -/
structure Digraph where
  order : Nat
  edges : List (Nat × Nat) := []
  deriving Inhabited

namespace Digraph

/-- Add an edge unless it is there. -/
def connect (g : Digraph) (source target : Nat) : Digraph :=
  if (source, target) ∈ g.edges then g
  else { g with edges := g.edges ++ [(source, target)] }

/-- The edges after adding one are those before and the new one. -/
theorem mem_edges_connect {g : Digraph} {source target : Nat} {e : Nat × Nat} :
    e ∈ (g.connect source target).edges ↔ e ∈ g.edges ∨ e = (source, target) := by
  unfold connect
  split
  · next h =>
    constructor
    · exact .inl
    · rintro (h' | rfl) <;> assumption
  · simp

/-- The nodes of a graph. -/
def nodes (g : Digraph) : List Nat := List.range g.order

/-- The targets of the edges from a node, in the order in which these were added. -/
def successors (g : Digraph) (v : Nat) : List Nat :=
  (g.edges.filter (·.1 = v)).map (·.2)

/-- The sources of the edges to a node, in the order in which these were added. -/
def predecessors (g : Digraph) (v : Nat) : List Nat :=
  (g.edges.filter (·.2 = v)).map (·.1)

/-- The targets of edges from the given nodes that are not among these. -/
def frontier (g : Digraph) (seen : List Nat) : List Nat :=
  ((g.edges.filter fun e => seen.contains e.1 && !seen.contains e.2).map (·.2)).eraseDups

/-- The given nodes and all that at most `steps` edges lead to. -/
def reachWithin (g : Digraph) : Nat → List Nat → List Nat
  | 0, seen => seen
  | steps + 1, seen =>
    if (g.frontier seen).isEmpty then seen
    else g.reachWithin steps (seen ++ g.frontier seen)

/-- Nodes that were seen stay reached. -/
theorem subset_reachWithin (g : Digraph) (steps : Nat) (seen : List Nat) :
    seen ⊆ g.reachWithin steps seen := by
  induction steps generalizing seen with
  | zero => exact List.Subset.refl _
  | succ steps ih =>
    rw [reachWithin]
    split
    · exact List.Subset.refl _
    · exact List.Subset.trans (List.subset_append_left _ _) (ih _)

/-- The nodes that a node leads to by any number of edges, itself included, in
increasing order. -/
def reach (g : Digraph) (v : Nat) : List Nat :=
  let seen := g.reachWithin g.order [v]
  g.nodes.filter seen.contains

/-- Whether some edge can be followed back to where it starts. -/
def hasCycle (g : Digraph) : Bool := g.edges.any fun e => (g.reach e.2).contains e.1

end Digraph

end StatementForest
