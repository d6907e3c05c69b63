import StatementForest.Store.Basic

/-!
# Merging stores

One store takes in all slots and trees of another.  The statements and trees of
the other keep their order and are numbered behind those that were there, empty
slots included.

Main results:

- `Store.get?_absorb_left`, `Store.get?_absorb_right`: a lookup in the merged
  store.

Current gaps:

- Shifted numbers are assumed to fit into 32 bits, like all numbers of a store.
-/

namespace StatementForest

/-- A statement behind `slots` other statements and `trees` other trees. -/
def Node.shift (slots trees : Nat) (n : Node) : Node :=
  { n with
    parent := n.parent.map (·.shift slots)
    root := n.root.shift trees
    children := n.children.map (·.shift slots)
    findings := (n.findings.map (Finding.shift slots)).foldl insertFinding [] }

/-- A tree behind `slots` other statements and `trees` other trees. -/
def Tree.shift (slots trees : Nat) (t : Tree) : Tree :=
  { t with
    top := t.top.map (·.shift slots)
    owner := t.owner.map (·.shift trees)
    submodules := t.submodules.map (·.shift trees) }

namespace Store

/-- Take in every statement and tree of another store. -/
def absorb (s other : Store) : Store where
  slots := s.slots ++ other.slots.map (·.map (Node.shift s.slots.size s.trees.size))
  trees := s.trees ++ other.trees.map (Tree.shift s.slots.size s.trees.size)

/-- The statements of the first store are found as they were. -/
theorem get?_absorb_left {s other : Store} {id : NodeId} (h : id.index < s.slots.size) :
    (s.absorb other).get? id = s.get? id := by
  simp [get?, absorb, Array.getElem?_append, h]

/-- The statements of the second store are found shifted. -/
theorem get?_absorb_right {s other : Store} {id : NodeId} :
    (s.absorb other).get? (id.shift s.slots.size) =
      (other.get? id).map (Node.shift s.slots.size s.trees.size) := by
  simp only [get?, absorb, NodeId.shift, Array.getElem?_append]
  rw [if_neg (by omega)]
  simp only [Nat.add_sub_cancel, Array.getElem?_map]
  rcases other.slots[id.index]? with _ | _ | n <;> simp

end Store

end StatementForest
