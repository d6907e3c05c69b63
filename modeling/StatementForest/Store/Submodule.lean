import StatementForest.Store.Basic

/-!
# Modules and their submodules

A submodule belongs to the tree of a module.  Statements of a submodule live in
the namespace of that module; without one they have no namespace.
-/

namespace StatementForest
namespace Store

/-- The tree whose module owns the statements of a tree: the tree itself, or the
owner when the top statement is a submodule. -/
def owningTree (s : Store) (root : RootId) : Except Failure (Option RootId) := do
  let t ← s.tree root
  match t.top with
  | none => return none
  | some top =>
    if (← s.node top).isKeyword .submodule then return t.owner else return some root

/-- The namespace of the statements of a tree. -/
def namespaceOf (s : Store) (root : RootId) : Except Failure (Option String) := do
  match ← s.owningTree root with
  | none => return none
  | some owner =>
    match (← s.tree owner).top with
    | none => return none
    | some top =>
      let _ ← s.node top
      return (s.firstNodeOfKeyword top .namespaceStatement).map (·.argument)

end Store

namespace StoreM

/-- Make one tree the owner of another, in place of an earlier owner. -/
def linkSubmodule (owner submodule : RootId) : StoreM Unit := do
  if owner = submodule then throw (.invalidMutation .ownSubmodule)
  let _ ← tree owner
  let previous := (← tree submodule).owner
  updateTree submodule fun t => { t with owner := some owner }
  match previous with
  | some previous =>
    if previous ≠ owner then
      updateTree previous fun t =>
        { t with submodules := t.submodules.filter (· ≠ submodule) }
  | none => pure ()
  updateTree owner fun t =>
    if submodule ∈ t.submodules then t
    else { t with submodules := t.submodules ++ [submodule] }

end StoreM

end StatementForest
