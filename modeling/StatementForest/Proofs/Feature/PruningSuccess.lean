import StatementForest.Feature.Pruning
import StatementForest.Proofs.Store.DiscardedSubtrees

/-!
# Pruning takes out whole subtrees

A statement that is taken out goes with all below it.  What is left stands where it
stood, so a walk over the children of a statement finds each of them when it gets
there, although it takes out others on the way.

Main results:

- Theorem `Store.Thinned.trans`: subtrees can be taken out one after another.
- Theorem `FeatureRegistry.pruneChildren_succeeds`: the children of a statement are
  looked at, and those that are kept are still there.
- Theorem `FeatureRegistry.pruneWithin_succeeds`: a tree is pruned, by induction on
  the levels that are left.
-/

namespace StatementForest
namespace Store

variable {s t u : Store} {gone gone' : NodeId → Prop} {x p : NodeId}

/-- The second store lacks some statements of the first one, all of which are `gone`.
The others stand where they stood. -/
structure Thinned (s t : Store) (gone : NodeId → Prop) : Prop where
  owned : t.Owned
  size : t.slots.size = s.slots.size
  trees : t.trees = s.trees
  contains_of_contains : ∀ x, t.contains x = true → s.contains x = true
  parentOf : ∀ x, t.contains x = true → t.parentOf x = s.parentOf x
  faceOf : ∀ x, t.contains x = true → t.faceOf x = s.faceOf x
  contains_of_not_gone : ∀ x, s.contains x = true → ¬ gone x → t.contains x = true

namespace Thinned

/-- A store with the same links lacks nothing. -/
theorem of_parallel (o : s.Owned) (h : Parallel s t) : Thinned s t gone where
  owned := o.of_parallel h
  size := h.size
  trees := h.trees
  contains_of_contains x hx := by rwa [h.contains] at hx
  parentOf x _ := h.parentOf x
  faceOf x _ := h.faceOf x
  contains_of_not_gone x hx _ := by rwa [h.contains]

theorem refl (o : s.Owned) : Thinned s s gone := of_parallel o (Parallel.refl s)

/-- More statements may be called gone. -/
theorem mono (h : Thinned s t gone) (hgone : ∀ x, gone x → gone' x) : Thinned s t gone' :=
  { h with contains_of_not_gone := fun x hx hnot =>
      h.contains_of_not_gone x hx fun hx' => hnot (hgone x hx') }

/-- What is gone in the end was taken out in the first step, or is taken out of what
that step has left. -/
theorem trans (h : Thinned s t gone) (h' : Thinned t u gone') :
    Thinned s u fun x => gone x ∨ t.contains x = true ∧ gone' x where
  owned := h'.owned
  size := h'.size.trans h.size
  trees := h'.trees.trans h.trees
  contains_of_contains x hx := h.contains_of_contains x (h'.contains_of_contains x hx)
  parentOf x hx := (h'.parentOf x hx).trans (h.parentOf x (h'.contains_of_contains x hx))
  faceOf x hx := (h'.faceOf x hx).trans (h.faceOf x (h'.contains_of_contains x hx))
  contains_of_not_gone x hx hnot := by
    rw [not_or, not_and] at hnot
    have hxt := h.contains_of_not_gone x hx hnot.1
    exact h'.contains_of_not_gone x hxt (hnot.2 hxt)

/-- A statement that is left keeps its parent. -/
theorem parentOf_eq_some (h : Thinned s t gone) (hp : s.parentOf x = some p)
    (hx : ¬ gone x) : t.parentOf x = some p := by
  rw [h.parentOf x (h.contains_of_not_gone x (contains_of_parentOf hp) hx), hp]

/-- What is left is below the same statements as before. -/
theorem below_iff (h : Thinned s t gone) (hx : t.contains x = true) {a : NodeId} :
    t.Below a x ↔ s.Below a x := by
  refine (below_congr fun y hy => ?_).symm
  exact (h.parentOf y (h.owned.wired.contains_of_below hx hy)).symm

/-- A statement that is left keeps its depth. -/
theorem depth (h : Thinned s t gone) (hx : t.contains x = true) {d : Nat}
    (hd : s.Depth x d) : t.Depth x d := by
  refine hd.of_parentOf_eq fun y hy => h.parentOf y ?_
  exact h.owned.wired.contains_of_below hx ((h.below_iff hx).mpr hy)

end Thinned
end Store

/-! ## One child -/

namespace FeatureRegistry

open Store

variable {s : Store} {r : FeatureRegistry} {parent child : NodeId}

/-- Adding to the data of a statement touches no link. -/
theorem keepsLinks_pushData (name : String) (value : CustomValue) :
    Node.KeepsLinks (·.pushData name value) := by
  refine ⟨?_, ?_, ?_, ?_⟩ <;>
  · intro n
    unfold Node.pushData
    split <;> rfl

/-- A child is taken out with all below it, and nothing else is. -/
theorem takeOut_succeeds (o : s.Owned) (h : s.parentOf child = some parent) :
    Succeeds (takeOut parent child) s fun _ t => Thinned s t (s.Below child) := by
  obtain ⟨n, hn⟩ := contains_iff.mp (contains_of_parentOf h)
  apply Yields.bind_of_eq (StoreM.node_apply hn)
  apply Yields.bind (StoreM.removeChild_succeeds o h)
  intro _ t ⟨ot, ht, _⟩
  have hlive : t.contains child = true := by rw [ht.contains, contains_of_parentOf h]
  have htop : t.isTop child = false := by rw [ht.isTop, o.rooted.not_isTop_of_parentOf h]
  apply Yields.bind (StoreM.discardSubtree_succeeds ot hlive ht.parentOf_self htop)
  intro _ u ⟨ou, hu⟩
  have hleft : ∀ x, u.contains x = true → ¬ t.Below child x := by
    intro x hx hb
    rw [hu.not_contains_below hb] at hx
    cases hx
  have hthin : Thinned s u (s.Below child) := by
    refine ⟨ou, hu.size.trans ht.size, hu.trees.trans ht.trees, ?_, ?_, ?_, ?_⟩
    · intro x hx
      rwa [hu.contains_of_not_below (hleft x hx), ht.contains] at hx
    · intro x hx
      have hne : x ≠ child := by
        rintro rfl
        exact hleft x hx .self
      rw [hu.parentOf_of_not_below (hleft x hx), ht.parentOf_of_ne x hne]
    · intro x hx
      rw [hu.faceOf_of_not_below (hleft x hx), ht.faceOf]
    · intro x hx hnot
      rwa [hu.contains_of_not_below (fun hb => hnot (ht.below_iff.mp hb)), ht.contains]
  have hparent : u.contains parent = true :=
    hthin.contains_of_not_gone parent (o.wired.contains_parent h)
      ((o.wired.grounded parent).not_below_parent h)
  obtain ⟨m, hm⟩ := contains_iff.mp hparent
  apply Yields.of_eq (StoreM.update_apply hm _)
  have hlast : Thinned u _ (s.Below child) := Thinned.of_parallel ou
    (parallel_update (keepsLinks_pushData removedData (.text (removedName n))) parent)
  exact (hthin.trans hlast).mono fun x hx => hx.elim id And.right

/-- One child is looked at.  If it stays, it is still there. -/
theorem pruneChild_succeeds (o : s.Owned) (h : s.parentOf child = some parent) :
    Succeeds (r.pruneChild parent child) s fun verdict t =>
      Thinned s t (s.Below child) ∧ (verdict.stays = true → t.contains child = true) := by
  have hlive := contains_of_parentOf h
  obtain ⟨n, hn⟩ := contains_iff.mp hlive
  apply Yields.bind_of_eq (StoreM.node_apply hn)
  split
  · exact Yields.pure ⟨Thinned.refl o, fun _ => hlive⟩
  apply Yields.bind_of_eq (StoreM.childrenOfKeyword_apply hn _)
  split
  · exact Yields.pure ⟨Thinned.refl o, fun _ => hlive⟩
  refine Yields.bind_of_eq (a := (r.admits s child, conditionFindings s child)) (t := s) ?_ ?_
  · rw [query_apply, judge, node_of_get? hn]
    rfl
  dsimp only
  split
  · exact Yields.pure ⟨Thinned.refl o, fun _ => hlive⟩
  · refine Yields.bind (takeOut_succeeds o h) fun _ t ht => Yields.pure ⟨ht, ?_⟩
    intro hstays
    cases hstays

/-! ## Several children -/

/-- Different children of a statement are looked at one after another.  Those that
are kept are still there at the end. -/
theorem pruneChildren_succeeds {children : List NodeId} (o : s.Owned)
    (h : ∀ c ∈ children, s.parentOf c = some parent) (hnodup : children.Nodup) :
    Succeeds (r.pruneChildren parent children) s fun result t =>
      Thinned s t (fun x => ∃ c ∈ children, s.Below c x) ∧ result.1.Sublist children ∧
        ∀ c ∈ result.1, t.contains c = true := by
  induction children generalizing s with
  | nil => exact Yields.pure ⟨Thinned.refl o, List.Sublist.refl [], by simp⟩
  | cons child rest ih =>
    have hchild := h child List.mem_cons_self
    obtain ⟨hnot, hrest⟩ := List.nodup_cons.mp hnodup
    -- a sibling stands outside the subtree of another one
    have hapart : ∀ c ∈ rest, ¬ s.Below child c ∧ ¬ s.Below c child := by
      intro c hc
      have hne : c ≠ child := fun heq => hnot (heq ▸ hc)
      have hmem := o.wired.mem_of_parentOf (h c (List.mem_cons_of_mem _ hc))
      have hmem' := o.wired.mem_of_parentOf hchild
      exact ⟨o.wired.not_below_of_siblings hmem hmem' hne .self,
        o.wired.not_below_of_siblings hmem' hmem hne.symm .self⟩
    rw [pruneChildren_cons]
    apply Yields.bind (pruneChild_succeeds o hchild)
    intro verdict t ⟨ht, hstays⟩
    have hrestParent : ∀ c ∈ rest, t.parentOf c = some parent := fun c hc =>
      ht.parentOf_eq_some (h c (List.mem_cons_of_mem _ hc)) (hapart c hc).1
    apply Yields.bind (ih ht.owned hrestParent hrest)
    rintro ⟨kept, findings⟩ u ⟨hu, hsub, hkept⟩
    refine Yields.pure ⟨(ht.trans hu).mono ?_, ?_, ?_⟩
    · rintro x (hx | ⟨hxt, c, hc, hx⟩)
      · exact ⟨child, List.mem_cons_self, hx⟩
      · exact ⟨c, List.mem_cons_of_mem _ hc, (ht.below_iff hxt).mp hx⟩
    · dsimp only
      split
      · exact hsub.cons_cons child
      · exact hsub.cons child
    · intro c hc
      dsimp only at hc
      split at hc
      · next hstay =>
        rcases List.mem_cons.mp hc with rfl | hc
        · have hlive := hstays hstay
          apply hu.contains_of_not_gone c hlive
          rintro ⟨d, hd, hbelow⟩
          exact (hapart d hd).2 ((ht.below_iff hlive).mp hbelow)
        · exact hkept c hc
      · exact hkept c hc

/-! ## Whole trees -/

/-- A walk that may go on for long enough prunes all below a statement, and takes out
only what stands below it. -/
theorem pruneWithin_succeeds {height d : Nat} (o : s.Owned) (hlive : s.contains parent = true)
    (hd : s.Depth parent d) (hheight : s.slots.size ≤ height + d) :
    Succeeds (r.pruneWithin height parent) s fun _ t =>
      Thinned s t fun x => s.Below parent x ∧ x ≠ parent := by
  induction height generalizing s parent d with
  | zero =>
    have hlt := o.wired.depth_lt_size hd hlive
    omega
  | succ height ih =>
    obtain ⟨n, hn⟩ := contains_iff.mp hlive
    -- what is below a child is below the parent
    have hbelow : ∀ {c x}, s.parentOf c = some parent → s.Below c x →
        s.Below parent x ∧ x ≠ parent := by
      intro c x hc hx
      refine ⟨(below_of_parentOf hc).trans hx, ?_⟩
      rintro rfl
      exact (o.wired.grounded x).not_below_parent hc hx
    rw [pruneWithin_succ]
    apply Yields.bind_of_eq (StoreM.childrenOf_apply hn)
    rw [← childrenOf_of_get? hn]
    have hparent : ∀ c ∈ s.childrenOf parent, s.parentOf c = some parent := fun c hc =>
      o.wired.parentOf_of_mem hc
    apply Yields.bind (pruneChildren_succeeds o hparent (o.wired.nodup_children parent))
    rintro ⟨kept, findings⟩ t ⟨ht, hsub, hkept⟩
    refine Yields.bind (Yields.mapM (I := fun rest u =>
      Thinned s u (fun x => s.Below parent x ∧ x ≠ parent) ∧ rest.Nodup ∧
        ∀ c ∈ rest, u.contains c = true ∧ s.parentOf c = some parent) ?_ ?_) ?_
    · refine ⟨ht.mono ?_, ?_, ?_⟩
      · rintro x ⟨c, hc, hx⟩
        exact hbelow (hparent c hc) hx
      · exact List.nodup_reverse.mpr ((o.wired.nodup_children parent).sublist hsub)
      · intro c hc
        have hc := List.mem_reverse.mp hc
        exact ⟨hkept c hc, hparent c (hsub.subset hc)⟩
    · intro child rest u ⟨hu, hnodup, hrest⟩
      obtain ⟨hchild, hchildParent⟩ := hrest child List.mem_cons_self
      obtain ⟨hnot, hnodup⟩ := List.nodup_cons.mp hnodup
      have hdepth : u.Depth child (d + 1) := hu.depth hchild (.under hchildParent hd)
      apply Yields.imp (ih hu.owned hchild hdepth (by rw [hu.size]; omega))
      intro _ v hv
      refine ⟨(hu.trans hv).mono ?_, hnodup, fun c hc => ?_⟩
      · rintro x (hx | ⟨hxu, hx, _⟩)
        · exact hx
        · exact hbelow hchildParent ((hu.below_iff hxu).mp hx)
      · obtain ⟨hc', hcParent⟩ := hrest c (List.mem_cons_of_mem _ hc)
        refine ⟨hv.contains_of_not_gone c hc' ?_, hcParent⟩
        rintro ⟨hx, hne⟩
        exact o.wired.not_below_of_siblings (o.wired.mem_of_parentOf hcParent)
          (o.wired.mem_of_parentOf hchildParent) hne .self ((hu.below_iff hc').mp hx)
    · intro _ u ⟨hu, _⟩
      exact Yields.pure hu

/-- A tree is pruned, and every statement without a parent is left. -/
theorem pruneTree_succeeds (o : s.Owned) {root : RootId} {tree : Tree}
    (h : s.tree? root = some tree) :
    Succeeds (r.pruneTree root) s fun _ t => Thinned s t fun x => s.parentOf x ≠ none := by
  apply Yields.bind_of_eq (StoreM.tree_apply h)
  rcases htop : tree.top with _ | top
  · exact Yields.pure (Thinned.refl o)
  have hroot : s.topOf root = some top := by rw [topOf, h, Option.bind_some, htop]
  have hlive := contains_of_rootOf (o.rooted.rootOf_top root top hroot)
  apply Yields.bind_get
  refine (pruneWithin_succeeds o hlive (.top (o.rooted.parentOf_top root top hroot))
    (by omega)).imp ?_
  intro _ t ht
  apply ht.mono
  rintro x ⟨hx, hne⟩
  obtain ⟨p, hp, _⟩ := hx.exists_parent hne.symm
  rw [hp]
  exact Option.some_ne_none p

end FeatureRegistry
end StatementForest
