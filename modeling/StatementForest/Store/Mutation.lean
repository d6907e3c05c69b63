import StatementForest.Store.Traversal

/-!
# Changes of the forest

Every structural change checks its arguments first.  It then rewrites both
directions of the parent links one statement at a time, and each of these steps
fails by itself when it meets a number without a statement.  A statement that
moves leaves its old parent first, so it has one owner at any time.

Main results:

- `Store.checkAttach_eq_ok_iff`: when a statement may be put below another.
-/

namespace StatementForest
namespace Store

/-! ### Checks -/

/-- Fail when `child` cannot be put below `parent`. -/
def checkAttach (s : Store) (parent child : NodeId) : Except Failure Unit := do
  let _ ← s.node parent
  let _ ← s.node child
  if s.isAncestorOrSelf child parent then
    throw (.invalidMutation (.underOwnDescendant child parent))
  if s.isTop child then
    throw (.invalidMutation (.topStatement child))

theorem checkAttach_eq_ok_iff {s : Store} {parent child : NodeId} :
    s.checkAttach parent child = .ok () ↔
      s.contains parent = true ∧ s.contains child = true ∧
        s.isAncestorOrSelf child parent = false ∧ s.isTop child = false := by
  simp only [checkAttach, node, contains]
  rcases s.get? parent with _ | p <;> rcases s.get? child with _ | c <;>
    rcases s.isAncestorOrSelf child parent <;> rcases s.isTop child <;>
    simp [bind, Except.bind, pure, Except.pure, throw, throwThe, MonadExceptOf.throw]

/-- The place of a statement among the children of a parent. -/
def childIndex (s : Store) (parent child : NodeId) : Except Failure Nat := do
  let n ← s.node parent
  match n.children.idxOf? child with
  | some index => return index
  | none => throw (.invalidMutation (.notAChild child parent))

end Store

namespace Node

/-- Put a statement among the children of another, at the end unless a place
before the end is asked for. -/
def insertChild (n : Node) (child : NodeId) (index? : Option Nat) : Node :=
  let count := n.children.length
  { n with children := n.children.insertIdx (min (index?.getD count) count) child }

/-- Put a statement behind the other children. -/
def pushChild (n : Node) (child : NodeId) : Node :=
  { n with children := n.children ++ [child] }

/-- A copy of a statement below a parent, still without children.  Findings are
about the original only. -/
def copyBelow (n : Node) (parent : NodeId) (root : RootId) : Node :=
  { n with parent := some parent, root, children := [], findings := [] }

end Node

namespace StoreM

/-! ### Moving -/

/-- Take `child` away from `parent` and tell which place it had. -/
def removeChild (parent child : NodeId) : StoreM Nat := do
  let index ← query (·.childIndex parent child)
  update parent fun n => { n with children := n.children.eraseIdx index }
  update child fun n => { n with parent := none }
  return index

/-- Give a subtree the number of another tree, unless its statement has it already. -/
def assignRoot (id : NodeId) (root : RootId) : StoreM Unit := do
  if (← node id).root = root then return
  updateBelow id fun n => { n with root }

/-- Put `child` below `parent`, taking it away from an earlier parent. -/
def addChild (parent child : NodeId) (index? : Option Nat) : StoreM Unit := do
  query (·.checkAttach parent child)
  match (← node child).parent with
  | some previous =>
    let _ ← removeChild previous child
  | none => pure ()
  let root := (← node parent).root
  update parent (·.insertChild child index?)
  update child fun n => { n with parent := some parent }
  assignRoot child root

/-- Put `child` below `parent` as its last child. -/
def appendChild (parent child : NodeId) : StoreM Unit := addChild parent child none

/-! ### Replacing -/

/-- Put `new` at the place of `old`, which becomes detached. -/
def replaceChild (parent old new : NodeId) : StoreM Unit := do
  if old = new then return
  query (·.checkAttach parent new)
  let index ← removeChild parent old
  -- an earlier sibling leaves its own place, so the gap moves to the left
  let siblings ← childrenOf parent
  let isEarlier := (← node new).parent = some parent ∧
    (siblings.idxOf? new).any (· < index)
  addChild parent new (some (if isEarlier then index - 1 else index))

/-- Detach every child with a key and append `new` children; tell which ones left. -/
def replaceChildrenWithKey (parent : NodeId) (key : Key) (new : List NodeId) :
    StoreM (List NodeId) := do
  new.forM fun child => query (·.checkAttach parent child)
  let removed ← childrenWithKey parent key
  removed.forM fun child => do
    let _ ← removeChild parent child
  new.forM fun child => appendChild parent child
  return removed

/-! ### Copying and discarding -/

/-- Copy a subtree of less than `height` levels.  The copy of a statement is made
before those of its children, and knows its parent before that lists it. -/
def copyWithin : (height : Nat) → (source parent : NodeId) → RootId → StoreM NodeId
  | 0, _, _, _ => throw Store.endlessWalk
  | height + 1, source, parent, root => do
    let original ← node source
    let id ← modifyGet (·.alloc (original.copyBelow parent root))
    original.children.forM fun child => do
      let copy ← copyWithin height child id root
      update id (·.pushChild copy)
    return id

/-- Copy a subtree below a new parent.  The copies start without findings. -/
def cloneSubtree (source newParent : NodeId) : StoreM NodeId := do
  let root := (← node newParent).root
  let copy ← copyWithin ((← get).slots.size + 1) source newParent root
  update newParent (·.pushChild copy)
  return copy

/-- Empty the slots of a detached subtree. -/
def discardSubtree (id : NodeId) : StoreM Unit := do
  let n ← node id
  if n.parent.isSome || (← get).isTop id then
    throw (.invalidMutation (.stillInTree id))
  let below ← query (·.descendants id)
  modify fun s => below.foldl Store.free s

end StoreM

end StatementForest
