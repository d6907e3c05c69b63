import StatementForest.Store.Basic

/-!
# Walks through the forest

Downwards along the children and upwards along the parents.  The height of a
tree and the length of a parent chain are at most the number of slots, so that
number bounds both walks.
-/

namespace StatementForest
namespace Store

/-- The failure of a walk downwards that takes more steps than there are slots. -/
def endlessWalk : Failure := .internal "a statement stands below itself"

/-- A live statement and those below it, parents first.  A walk that goes on for
`height` levels fails. -/
def descendantsWithin (s : Store) : (height : Nat) → NodeId → Except Failure (List NodeId)
  | 0, _ => .error endlessWalk
  | height + 1, id => do
    let n ← s.node id
    return id :: (← n.children.mapM (s.descendantsWithin height)).flatten

/-- A live statement and all those below it, parents first. -/
def descendants (s : Store) (id : NodeId) : Except Failure (List NodeId) :=
  s.descendantsWithin (s.slots.size + 1) id

/-- A statement and at most `steps` of those above it, the nearest first. -/
def chainWithin (s : Store) : Nat → NodeId → List NodeId
  | 0, id => [id]
  | steps + 1, id =>
    match s.parentOf id with
    | some parent => id :: s.chainWithin steps parent
    | none => [id]

/-- A statement and all those above it, the nearest first. -/
def ancestors (s : Store) (id : NodeId) : List NodeId := s.chainWithin s.slots.size id

/-- Whether one statement is another or stands above it. -/
def isAncestorOrSelf (s : Store) (ancestor id : NodeId) : Bool :=
  (s.ancestors id).contains ancestor

theorem chainWithin_succ (s : Store) (steps : Nat) (id : NodeId) :
    s.chainWithin (steps + 1) id =
      match s.parentOf id with
      | some parent => id :: s.chainWithin steps parent
      | none => [id] := rfl

end Store

namespace StoreM

/-- Change a live statement and all those below it. -/
def updateBelow (id : NodeId) (f : Node → Node) : StoreM Unit := do
  let below ← query (·.descendants id)
  below.forM fun d => update d f

end StoreM

end StatementForest
