import StatementForest.Store.Traversal

/-!
# The shape of a forest

The shape of a statement is the number of its slot, the number of its tree where
that differs from the one above, and the shapes of its children in parentheses.
It shows links that went wrong: a child that is gone has an exclamation mark, and
one that points back to another parent a question mark.
-/

namespace StatementForest
namespace Store

/-- The shape of a statement below the given tree and parent, with those at most
`height` levels below it. -/
def shapeWithin (s : Store) : (height : Nat) → (above : Option RootId) →
    (parent : Option NodeId) → NodeId → String
  | 0, _, _, id => toString id.index
  | height + 1, above, parent, id =>
    match s.get? id with
    | none => "!" ++ toString id.index
    | some n =>
      let mark := if n.parent = parent then "" else "?"
      let tree := if above = some n.root then "" else "@" ++ toString n.root.index
      let children := n.children.map (s.shapeWithin height (some n.root) (some id))
      let below := if children.isEmpty then "" else "(" ++ ",".intercalate children ++ ")"
      mark ++ toString id.index ++ tree ++ below

/-- The shapes of all statements without a parent. -/
def shapes (s : Store) : List String :=
  (s.liveIds.filter fun id => (s.parentOf id).isNone).map
    (s.shapeWithin (s.slots.size + 1) none none)

end Store
end StatementForest
