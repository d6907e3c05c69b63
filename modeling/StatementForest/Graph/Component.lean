import StatementForest.Graph.Digraph

/-!
# Strongly connected components

One depth-first search finds the components.  Every open node carries the
smallest visiting number that is known to be reachable from it; a node that is
left with its own number is the last of its component to be closed, and the
component is then on top of the stack.
-/

namespace StatementForest

/-- What the search knows of a node. -/
inductive Mark where
  | unvisited
  /-- Visited, with the smallest visiting number known to be reachable. -/
  | active (low : Nat)
  /-- Part of a component that was given out. -/
  | closed
  deriving DecidableEq, Repr

namespace Mark

/-- Whether a mark stands for a smaller visiting number than another. -/
def isBelow : Mark → Mark → Bool
  | .active low, .active low' => low < low'
  | .active _, .closed => true
  | _, _ => false

end Mark

/-- The state of the search. -/
structure ComponentSearch where
  mark : Nat → Mark := fun _ => .unvisited
  /-- The visiting number of the next node. -/
  next : Nat := 0
  /-- Nodes whose component is not complete, the latest first. -/
  stack : List Nat := []
  /-- The components that are complete, in the order of completion. -/
  components : List (List Nat) := []

namespace ComponentSearch

/-- Change the mark of one node. -/
def setMark (s : ComponentSearch) (v : Nat) (m : Mark) : ComponentSearch :=
  { s with mark := fun u => if u = v then m else s.mark u }

/-- Give a node the next visiting number. -/
def enter (s : ComponentSearch) (v : Nat) : ComponentSearch :=
  { s.setMark v (.active s.next) with next := s.next + 1 }

/-- The nodes on top of the stack that belong to the component of a node. -/
def companions (s : ComponentSearch) (v : Nat) : List Nat :=
  s.stack.takeWhile fun w => !(s.mark w).isBelow (s.mark v)

/-- Give out the component of a node and of those on top of the stack. -/
def close (s : ComponentSearch) (v : Nat) : ComponentSearch :=
  let members := s.companions v
  { mark := fun u => if u = v || members.contains u then .closed else s.mark u
    next := s.next - (members.length + 1)
    stack := s.stack.drop members.length
    components := s.components ++ [members.reverse ++ [v]] }

/-- Let a node know what one of its successors reaches.  The flag tells whether the
node still has its own number. -/
def relax (v w : Nat) (state : ComponentSearch × Bool) : ComponentSearch × Bool :=
  let (s, isOwn) := state
  if (s.mark w).isBelow (s.mark v) then (s.setMark v (s.mark w), false) else (s, isOwn)

/-- Leave a node whose successors have been looked at. -/
def leave (v : Nat) (state : ComponentSearch × Bool) : ComponentSearch :=
  let (s, isOwn) := state
  if isOwn then s.close v else { s with stack := v :: s.stack }

/-- Visit a node and, through its edges, nodes up to `depth` levels away.  The
successor that was added last is looked at first. -/
def visit (g : Digraph) : Nat → Nat → ComponentSearch → ComponentSearch
  | 0, _, s => s
  | depth + 1, v, s =>
    leave v <| (g.successors v).foldr
      (fun w state =>
        relax v w
          (if state.1.mark w = .unvisited then (visit g depth w state.1, state.2) else state))
      (s.enter v, true)

theorem visit_succ (g : Digraph) (depth v : Nat) (s : ComponentSearch) :
    visit g (depth + 1) v s =
      leave v ((g.successors v).foldr
        (fun w state =>
          relax v w
            (if state.1.mark w = .unvisited then (visit g depth w state.1, state.2)
              else state))
        (s.enter v, true)) := rfl

/-- Visit every node that was not visited from another one. -/
def run (g : Digraph) : ComponentSearch :=
  g.nodes.foldl
    (fun s v => if s.mark v = .unvisited then visit g g.order v s else s) {}

end ComponentSearch

namespace Digraph

/-- The strongly connected components. -/
def components (g : Digraph) : List (List Nat) := (ComponentSearch.run g).components

/-- Whether a component holds a node that reaches itself by an edge or more. -/
def isCyclic (g : Digraph) (component : List Nat) : Bool :=
  match component with
  | [v] => g.edges.contains (v, v)
  | _ => component.length > 1

/-- The components whose nodes reach themselves. -/
def cyclicComponents (g : Digraph) : List (List Nat) := g.components.filter g.isCyclic

end Digraph

end StatementForest
