import StatementForest.Proofs.Store.ChildMoves

/-!
# Discarding subtrees

A detached subtree is discarded by emptying the slots of all its statements.  Its
first statement has no parent, so nothing outside of it refers into it.

Main results:

- Theorem `Store.Emptied.owned`: a store without a detached subtree satisfies the
  invariant.
- Theorem `StoreM.discardSubtree_succeeds`, `StoreM.discardSubtree_emptied`:
  discarding fails without any change, or empties exactly the slots of a subtree.
-/

namespace StatementForest
namespace Store

variable {s t : Store} {id x : NodeId}

/-! ## Empty slots -/

/-- The numbers that are emptied have no statement, and all others keep theirs. -/
theorem get?_freeAll (ids : List NodeId) (s : Store) (x : NodeId) :
    (ids.foldl Store.free s).get? x = if x ∈ ids then none else s.get? x := by
  induction ids generalizing s with
  | nil => rfl
  | cons d rest ih =>
    rw [List.foldl_cons, ih]
    by_cases hx : x = d
    · subst hx
      simp [get?_free_self]
    · simp [hx, get?_free_of_ne s hx]

/-- Emptying slots keeps the trees. -/
theorem trees_freeAll (ids : List NodeId) (s : Store) :
    (ids.foldl Store.free s).trees = s.trees := by
  induction ids generalizing s with
  | nil => rfl
  | cons d rest ih => exact ih (s.free d)

/-- Emptying slots keeps their number. -/
theorem size_freeAll (ids : List NodeId) (s : Store) :
    (ids.foldl Store.free s).slots.size = s.slots.size := by
  induction ids generalizing s with
  | nil => rfl
  | cons d rest ih => exact (ih (s.free d)).trans (by simp [free])

/-- A child is in a detached subtree exactly when its parent is. -/
theorem below_child_iff {c p : NodeId} (hnone : s.parentOf id = none)
    (hp : s.parentOf c = some p) : s.Below id c ↔ s.Below id p := by
  rw [below_iff_of_parentOf hp]
  apply or_iff_right
  rintro rfl
  rw [hnone] at hp
  cases hp

/-- Two stores of which the second one lacks the statements of one subtree. -/
structure Emptied (s t : Store) (id : NodeId) : Prop where
  size : t.slots.size = s.slots.size
  get?_below : ∀ x, s.Below id x → t.get? x = none
  get?_of_not_below : ∀ x, ¬ s.Below id x → t.get? x = s.get? x
  trees : t.trees = s.trees

namespace Emptied

variable (h : Emptied s t id)

include h

/-- A statement outside keeps its parent. -/
theorem parentOf_of_not_below (hx : ¬ s.Below id x) : t.parentOf x = s.parentOf x := by
  rw [parentOf, parentOf, h.get?_of_not_below x hx]

theorem childrenOf_of_not_below (hx : ¬ s.Below id x) :
    t.childrenOf x = s.childrenOf x := by
  rw [childrenOf, childrenOf, h.get?_of_not_below x hx]

theorem rootOf_of_not_below (hx : ¬ s.Below id x) : t.rootOf x = s.rootOf x := by
  rw [rootOf, rootOf, h.get?_of_not_below x hx]

theorem contains_of_not_below (hx : ¬ s.Below id x) : t.contains x = s.contains x := by
  rw [contains, contains, h.get?_of_not_below x hx]

theorem faceOf_of_not_below (hx : ¬ s.Below id x) : t.faceOf x = s.faceOf x := by
  rw [faceOf, faceOf, h.get?_of_not_below x hx]

theorem parentOf_below (hx : s.Below id x) : t.parentOf x = none := by
  rw [parentOf, h.get?_below x hx]
  rfl

theorem childrenOf_below (hx : s.Below id x) : t.childrenOf x = [] := by
  rw [childrenOf, h.get?_below x hx]

theorem not_contains_below (hx : s.Below id x) : t.contains x = false := by
  rw [contains, h.get?_below x hx]
  rfl

/-- A statement that is left stands where it stood, and is outside the subtree. -/
theorem parentOf_eq_some_iff {p : NodeId} :
    t.parentOf x = some p ↔ s.parentOf x = some p ∧ ¬ s.Below id x := by
  by_cases hx : s.Below id x
  · simp [h.parentOf_below hx, hx]
  · simp [h.parentOf_of_not_below hx, hx]

/-- The children and parents agree without a detached subtree. -/
theorem wired (w : s.Wired) (hnone : s.parentOf id = none) : t.Wired where
  mem_children p c := by
    rw [h.parentOf_eq_some_iff, ← w.mem_children]
    by_cases hp : s.Below id p
    · rw [h.childrenOf_below hp]
      constructor
      · intro hc
        cases hc
      · rintro ⟨hc, hnot⟩
        exact absurd ((below_child_iff hnone (w.parentOf_of_mem hc)).mpr hp) hnot
    · rw [h.childrenOf_of_not_below hp]
      refine (and_iff_left_of_imp fun hc hb => ?_).symm
      exact hp ((below_child_iff hnone (w.parentOf_of_mem hc)).mp hb)
  nodup_children p := by
    by_cases hp : s.Below id p
    · rw [h.childrenOf_below hp]
      exact List.nodup_nil
    · rw [h.childrenOf_of_not_below hp]
      exact w.nodup_children p
  grounded x := by
    refine (w.grounded x).of_changed fun y _ => ?_
    by_cases hy : s.Below id y
    · exact .inr (.top (h.parentOf_below hy))
    · exact .inl (h.parentOf_of_not_below hy)

/-- A subtree that holds no top leaves the tops where they are. -/
theorem rooted (hr : s.Rooted) (hnone : s.parentOf id = none) (htop : s.isTop id = false) :
    t.Rooted := by
  have hleft : ∀ r x, t.topOf r = some x → s.topOf r = some x ∧ ¬ s.Below id x := by
    intro r x hx
    rw [topOf, tree?, h.trees] at hx
    refine ⟨hx, fun hb => ?_⟩
    have heq := hb.eq_of_parentOf_eq_none (hr.parentOf_top r x hx)
    exact isTop_eq_false_iff.mp htop r (heq ▸ hx)
  refine ⟨fun c p hp => ?_, fun r x hx => ?_, fun r x hx => ?_⟩
  · rw [h.parentOf_eq_some_iff] at hp
    have hnot : ¬ s.Below id p := fun hb => hp.2 ((below_child_iff hnone hp.1).mpr hb)
    rw [h.rootOf_of_not_below hp.2, h.rootOf_of_not_below hnot]
    exact hr.rootOf_child c p hp.1
  · obtain ⟨hs, hnot⟩ := hleft r x hx
    rw [h.rootOf_of_not_below hnot]
    exact hr.rootOf_top r x hs
  · obtain ⟨hs, hnot⟩ := hleft r x hx
    rw [h.parentOf_of_not_below hnot]
    exact hr.parentOf_top r x hs

/-- A store without a detached subtree satisfies the invariant. -/
theorem owned (o : s.Owned) (hnone : s.parentOf id = none) (htop : s.isTop id = false) :
    t.Owned where
  wired := h.wired o.wired hnone
  rooted := h.rooted o.rooted hnone htop
  affiliated := o.affiliated.of_trees_eq h.trees

end Emptied
end Store

namespace StoreM

open Store

variable {s : Store} {id : NodeId}

/-- A detached statement that is no top is discarded with all below it. -/
theorem discardSubtree_succeeds (o : s.Owned) (hid : s.contains id = true)
    (hnone : s.parentOf id = none) (htop : s.isTop id = false) :
    Succeeds (discardSubtree id) s fun _ t => t.Owned ∧ Emptied s t id := by
  obtain ⟨n, hn⟩ := contains_iff.mp hid
  rw [parentOf_of_get? hn] at hnone
  have hemptied : Emptied s ((s.subtree id).foldl Store.free s) id := by
    refine ⟨size_freeAll _ s, fun x hx => ?_, fun x hx => ?_, trees_freeAll _ s⟩
    · rw [get?_freeAll, if_pos ((o.wired.mem_subtree hid).mpr hx)]
    · rw [get?_freeAll, if_neg fun h => hx ((o.wired.mem_subtree hid).mp h)]
  rw [discardSubtree]
  refine Yields.bind_of_eq (node_apply hn) (Yields.bind_get ?_)
  rw [hnone, htop, if_neg (by decide)]
  apply Yields.bind_of_eq (by rw [query_apply, o.wired.descendants_eq hid])
  refine Yields.of_eq (modify_apply _ s) ⟨hemptied.owned o ?_ htop, hemptied⟩
  rw [parentOf_of_get? hn, hnone]

/-- Discarding fails without any change, or empties exactly the slots of the subtree of a
live statement. -/
theorem discardSubtree_emptied (o : s.Owned) (id : NodeId) :
    Yields (fun _ t => t = s) (discardSubtree id) s fun _ t =>
      t.Owned ∧ Emptied s t id ∧ s.contains id = true := by
  rcases hn : s.get? id with _ | n
  · exact Yields.bind_of_error (node_apply_of_none hn) rfl
  have hid := contains_iff.mpr ⟨n, hn⟩
  by_cases hnone : s.parentOf id = none ∧ s.isTop id = false
  · refine Yields.of_succeeds ((discardSubtree_succeeds o hid hnone.1 hnone.2).imp ?_)
    intro _ t ⟨ot, ht⟩
    exact ⟨ot, ht, hid⟩
  · have hrefused : (n.parent.isSome || s.isTop id) = true := by
      rw [parentOf_of_get? hn] at hnone
      rcases hp : n.parent with _ | p <;> simp_all
    rw [discardSubtree]
    refine Yields.bind_of_eq (node_apply hn) (Yields.bind_get ?_)
    rw [if_pos hrefused]
    exact Yields.bind_of_error (throw_apply _ s) rfl

end StoreM
end StatementForest
