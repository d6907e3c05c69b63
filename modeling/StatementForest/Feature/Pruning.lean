import StatementForest.Feature.Registry
import StatementForest.Store.Mutation

/-!
# Taking out what is not supported

A statement below the top of a tree is taken out with all it holds when its
conditions do not hold.  Features themselves stay, with everything below them.
A parent keeps the names of the children that were taken out.
-/

namespace StatementForest
namespace FeatureRegistry

/-- The name under which a parent keeps the names of removed children. -/
def removedData : String := "removed-by-if-feature"

/-- The value of a statement, or its name when it has no value. -/
def removedName (n : Node) : String := n.element.value.getD n.name

/-- Take one child and all below it out of the store. -/
def takeOut (parent child : NodeId) : StoreM Unit := do
  let n ← StoreM.node child
  let _ ← StoreM.removeChild parent child
  StoreM.discardSubtree child
  StoreM.update parent (·.pushData removedData (.text (removedName n)))

/-- What was found out about a child. -/
structure Verdict where
  /-- Whether it is looked at further, and stays until then. -/
  stays : Bool
  findings : List Finding := []

/-- Look at one child, and take it out when its conditions do not hold. -/
def pruneChild (r : FeatureRegistry) (parent child : NodeId) : StoreM Verdict := do
  let n ← StoreM.node child
  if n.isKeyword .feature then return { stays := false }
  if (← StoreM.childrenOfKeyword child .ifFeature).isEmpty then return { stays := true }
  let (holds, findings) ← StoreM.query (r.judge · child)
  if holds then return { stays := true, findings }
  takeOut parent child
  return { stays := false, findings }

/-- Look at several children of a statement.  The result lists those that are
looked at further. -/
def pruneChildren (r : FeatureRegistry) (parent : NodeId) :
    List NodeId → StoreM (List NodeId × List Finding)
  | [] => return ([], [])
  | child :: rest => do
    let verdict ← r.pruneChild parent child
    let (kept, findings) ← pruneChildren r parent rest
    return (if verdict.stays then child :: kept else kept, verdict.findings ++ findings)

/-- The children are looked at from left to right. -/
theorem pruneChildren_cons (r : FeatureRegistry) (parent child : NodeId)
    (rest : List NodeId) :
    r.pruneChildren parent (child :: rest) = (do
      let verdict ← r.pruneChild parent child
      let (kept, findings) ← r.pruneChildren parent rest
      return (if verdict.stays then child :: kept else kept,
        verdict.findings ++ findings)) := rfl

/-- Prune below a statement.  Of the children that stay, the last one is looked at
first.  A walk that goes on for `height` levels fails. -/
def pruneWithin (r : FeatureRegistry) : (height : Nat) → NodeId → StoreM (List Finding)
  | 0, _ => throw Store.endlessWalk
  | height + 1, parent => do
    let children ← StoreM.childrenOf parent
    let (kept, findings) ← r.pruneChildren parent children
    let below ← kept.reverse.mapM (r.pruneWithin height)
    return findings ++ below.flatten

/-- A level is pruned before the levels below the children that are kept. -/
theorem pruneWithin_succ (r : FeatureRegistry) (height : Nat) (parent : NodeId) :
    r.pruneWithin (height + 1) parent = (do
      let children ← StoreM.childrenOf parent
      let (kept, findings) ← r.pruneChildren parent children
      let below ← kept.reverse.mapM (r.pruneWithin height)
      return findings ++ below.flatten) := rfl

/-- Prune a tree below its top. -/
def pruneTree (r : FeatureRegistry) (root : RootId) : StoreM (List Finding) := do
  match (← StoreM.tree root).top with
  | none => return []
  | some top => r.pruneWithin ((← get).slots.size + 1) top

/-- A store after pruning, with the findings made on the way. -/
structure PruneState where
  store : Store
  findings : List Finding := []

/-- Prune a tree of a store below its top. -/
def prune (r : FeatureRegistry) (root : RootId) (s : Store) : Except Failure PruneState :=
  match (r.pruneTree root).run s with
  | (.ok findings, store) => .ok { store, findings }
  | (.error failure, _) => .error failure

end FeatureRegistry
end StatementForest
