import StatementForest.Proofs.Store.ChildMoves

/-!
# Replacing children

Replacing takes several statements away and puts others in their place, after
checks that are made only once, in front.  None of the moves in between can
invalidate a check that was made for a later one, because they never touch the
chain of parents of the statement whose children are replaced.

Main results:

- Theorem `StoreM.Attachable.relinked`: moving another statement keeps the
  conditions for adding a child.
- Theorem `StoreM.replaceChild_outcome`, `StoreM.replaceChildrenWithKey_outcome`:
  replacing fails without any change, or succeeds and keeps the invariant.
-/

namespace StatementForest
namespace StoreM

open Store

variable {s t : Store} {parent : NodeId}

/-! ## What checks are worth later -/

/-- A statement that may be put below a parent may still be put there after another
statement, which does not stand above the parent, got or lost its own parent. -/
theorem Attachable.relinked {child moved : NodeId} {parent? : Option NodeId}
    (h : Attachable s parent child) (hmove : Relinked s t moved parent?)
    (hnot : ¬ s.Below moved parent) : Attachable t parent child where
  parent_live := by rw [hmove.contains]; exact h.parent_live
  child_live := by rw [hmove.contains]; exact h.child_live
  not_below := fun hb => h.not_below ((hmove.below_iff_of_not_below hnot).mp hb)
  not_top := by rw [hmove.isTop]; exact h.not_top

/-- A loop of checks changes nothing.  When it ends, all of them hold. -/
theorem forM_query_outcome {α : Type} (check : α → Store → Except Failure Unit)
    (items : List α) (s : Store) :
    Yields (fun _ t => t = s) (items.forM fun a => query (check a)) s
      fun _ t => t = s ∧ ∀ a ∈ items, check a s = .ok () := by
  induction items with
  | nil => exact ⟨rfl, by simp⟩
  | cons a rest ih =>
    change Yields _ (query (check a) >>= fun _ => rest.forM fun a => query (check a)) s _
    rcases ha : check a s with e | _
    · exact Yields.bind_of_error (by rw [query_apply, ha]) rfl
    · refine Yields.bind_of_eq (by rw [query_apply, ha]) (ih.imp ?_)
      intro _ t ⟨ht, hrest⟩
      refine ⟨ht, fun b hb => ?_⟩
      rcases List.mem_cons.mp hb with rfl | hb
      · exact ha
      · exact hrest b hb

/-! ## One child -/

/-- Adding a child fails without any change, or keeps the invariant.  A child that has been
added was allowed to be. -/
theorem addChild_outcome (o : s.Owned) (parent child : NodeId) (index? : Option Nat) :
    Yields (fun _ t => t = s) (addChild parent child index?) s fun _ t =>
      t.Owned ∧ Relinked s t child (some parent) ∧ Attachable s parent child := by
  rcases hcheck : s.checkAttach parent child with e | _
  · exact Yields.of_error (addChild_of_error hcheck _) rfl
  · have h := (attachable_iff o.wired).mp hcheck
    refine Yields.of_succeeds ((addChild_succeeds o h index?).imp ?_)
    intro _ t ⟨ot, ht⟩
    exact ⟨ot, ht, h⟩

/-- Removing a child fails without any change, or keeps the invariant.  What has been removed
was a child. -/
theorem removeChild_outcome (o : s.Owned) (parent child : NodeId) :
    Yields (fun _ t => t = s) (removeChild parent child) s fun _ t =>
      t.Owned ∧ Relinked s t child none ∧ s.parentOf child = some parent := by
  rcases h : s.childIndex parent child with e | index
  · exact Yields.of_error (removeChild_of_error h) rfl
  · have hindex := childIndex_eq_ok_iff.mp h
    have hmem : child ∈ s.childrenOf parent := List.isSome_idxOf?.mp (by rw [hindex]; rfl)
    have hparent := o.wired.parentOf_of_mem hmem
    refine Yields.of_succeeds ((removeChild_succeeds o hparent).imp ?_)
    intro _ t ⟨ot, ht, _⟩
    exact ⟨ot, ht, hparent⟩

/-- Replacing one child by another statement fails without any change, or keeps the
invariant.  Once the old child has left, nothing fails any more.  A statement that replaces
itself is not looked at. -/
theorem replaceChild_outcome (o : s.Owned) (parent old new : NodeId) :
    Yields (fun _ t => t = s) (replaceChild parent old new) s fun _ t =>
      t.Owned ∧ (old = new ∧ t = s ∨ s.parentOf old = some parent ∧
        Attachable s parent new ∧ t.parentOf new = some parent) := by
  rw [replaceChild]
  by_cases heq : old = new
  · rw [if_pos heq]
    exact Yields.pure ⟨o, .inl ⟨heq, rfl⟩⟩
  rw [if_neg heq]
  rcases hcheck : s.checkAttach parent new with e | _
  · exact Yields.bind_of_error (by rw [query_apply, hcheck]) rfl
  have h := (attachable_iff o.wired).mp hcheck
  refine Yields.bind_of_eq (by rw [query_apply, hcheck]) ?_
  refine Yields.bind (removeChild_outcome o parent old) ?_
  intro index t ⟨ot, ht, hold⟩
  have hnot := (o.wired.grounded parent).not_below_parent hold
  have ha := h.relinked ht hnot
  obtain ⟨p, hp⟩ := contains_iff.mp ha.parent_live
  obtain ⟨n, hn⟩ := contains_iff.mp ha.child_live
  refine Yields.bind_of_eq (childrenOf_apply hp) (Yields.bind_of_eq (node_apply hn) ?_)
  refine Yields.of_succeeds ((addChild_succeeds ot ha _).imp ?_)
  intro _ u ⟨ou, hu⟩
  exact ⟨ou, .inr ⟨hold, h, hu.parentOf_self⟩⟩

/-! ## All children of a key -/

/-- What holds while the children of a key leave: the rest of them are children
still, and the new children may still be added. -/
structure Leaving (parent : NodeId) (new rest : List NodeId) (s : Store) : Prop where
  owned : s.Owned
  nodup : rest.Nodup
  parentOf : ∀ c ∈ rest, s.parentOf c = some parent
  attachable : ∀ c ∈ new, Attachable s parent c

theorem Leaving.start (o : s.Owned) {key : Key} {new : List NodeId}
    (h : ∀ c ∈ new, Attachable s parent c) :
    Leaving parent new (s.childrenWithKey parent key) s where
  owned := o
  nodup := (o.wired.nodup_children parent).filter _
  parentOf _ hc := o.wired.parentOf_of_mem (List.mem_filter.mp hc).1
  attachable := h

/-- One child of a key leaves. -/
theorem Leaving.step {new rest : List NodeId} {child : NodeId}
    (h : Leaving parent new (child :: rest) s) :
    Succeeds (removeChild parent child) s fun _ t => Leaving parent new rest t := by
  have hparent := h.parentOf child List.mem_cons_self
  have hnot := (h.owned.wired.grounded parent).not_below_parent hparent
  have hnodup := List.nodup_cons.mp h.nodup
  refine (removeChild_succeeds h.owned hparent).imp ?_
  intro _ t ⟨ot, ht, _⟩
  refine ⟨ot, hnodup.2, fun c hc => ?_, fun c hc => (h.attachable c hc).relinked ht hnot⟩
  have hne : c ≠ child := by
    rintro rfl
    exact hnodup.1 hc
  rw [ht.parentOf_of_ne c hne]
  exact h.parentOf c (List.mem_cons_of_mem _ hc)

/-- All children of a key leave. -/
theorem Leaving.all {new rest : List NodeId} (h : Leaving parent new rest s) :
    Succeeds (rest.forM fun child => do let _ ← removeChild parent child) s fun _ t =>
      Leaving parent new [] t := by
  refine Yields.forM (I := Leaving parent new) h ?_
  intro child rest t ht
  exact Yields.bind ht.step fun _ _ hu => Yields.pure hu

/-- A statement that gets a parent is a child of it then, and so are those that were before. -/
theorem parentOf_of_relinked {child c : NodeId} (h : Relinked s t child (some parent))
    (hc : c = child ∨ s.parentOf c = some parent) : t.parentOf c = some parent := by
  by_cases heq : c = child
  · rw [heq, h.parentOf_self]
  · rw [h.parentOf_of_ne c heq]
    exact hc.resolve_left heq

/-- New children are appended one after another, and no child leaves. -/
theorem forM_appendChild_succeeds (o : s.Owned) {new : List NodeId}
    (h : ∀ c ∈ new, Attachable s parent c) :
    Succeeds (new.forM fun child => appendChild parent child) s fun _ t =>
      t.Owned ∧ ∀ c, c ∈ new ∨ s.parentOf c = some parent → t.parentOf c = some parent := by
  induction new generalizing s with
  | nil => exact ⟨o, by simp⟩
  | cons child rest ih =>
    have hchild := h child List.mem_cons_self
    change Succeeds (appendChild parent child >>= fun _ => rest.forM (appendChild parent ·)) s _
    refine Yields.bind (addChild_succeeds o hchild none) ?_
    intro _ t ⟨ot, ht⟩
    have hrest : ∀ c ∈ rest, Attachable t parent c := fun c hc =>
      (h c (List.mem_cons_of_mem _ hc)).relinked ht hchild.not_below
    refine Yields.imp (ih ot hrest) ?_
    intro _ u ⟨ou, hu⟩
    refine ⟨ou, fun c hc => hu c ?_⟩
    rw [List.mem_cons, or_right_comm] at hc
    exact hc.symm.imp id (parentOf_of_relinked ht)

/-- Replacing all children of a key fails without any change, or keeps the invariant.
Once the first old child has left, nothing fails any more, because every new child is
allowed. -/
theorem replaceChildrenWithKey_outcome (o : s.Owned) (parent : NodeId) (key : Key)
    (new : List NodeId) :
    Yields (fun _ t => t = s) (replaceChildrenWithKey parent key new) s fun _ t =>
      t.Owned ∧ s.contains parent = true ∧
        ∀ c ∈ new, Attachable s parent c ∧ t.parentOf c = some parent := by
  rw [replaceChildrenWithKey]
  refine Yields.bind (forM_query_outcome _ new s) ?_
  rintro _ _ ⟨rfl, hchecks⟩
  rename_i t
  have hnew : ∀ c ∈ new, Attachable t parent c := fun c hc =>
    (attachable_iff o.wired).mp (hchecks c hc)
  rcases hp : t.get? parent with _ | p
  · rw [childrenWithKey]
    exact Yields.bind_of_error (bind_apply_of_error (node_apply_of_none hp)) rfl
  refine Yields.bind_of_eq (childrenWithKey_apply hp key) (Yields.of_succeeds ?_)
  refine Yields.bind (Leaving.start o hnew).all ?_
  intro _ u hu
  refine Yields.bind (forM_appendChild_succeeds hu.owned hu.attachable) ?_
  rintro _ v ⟨ov, hv⟩
  exact Yields.pure ⟨ov, contains_iff.mpr ⟨p, hp⟩, fun c hc => ⟨hnew c hc, hv c (.inl hc)⟩⟩

end StoreM
end StatementForest
