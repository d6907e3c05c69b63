import StatementForest.Proofs.Store.BoundedWalks
import StatementForest.Store.Mutation

/-!
# Moving statements

Taking a child away from its parent and putting it below another one, step by
step.  In a store that satisfies the invariant the checks made in front are all
that can fail: once they hold, every later step finds the statements it needs,
and the invariant holds again at the end.

Main results:

- Theorem `StoreM.removeChild_succeeds`, `StoreM.removeChild_of_error`: a child
  is detached, and nothing happens to a statement that is no child.
- Theorem `StoreM.addChild_apply`: a statement that may be put below another one is
  detached first, and then linked.
- Theorem `StoreM.addChild_succeeds`, `StoreM.addChild_of_error`: it is put there;
  otherwise nothing happens.
-/

namespace StatementForest
namespace Store

/-! ## One parent link -/

/-- Two stores that differ in the links between one statement and its parents.
In the second one the parent of the statement is `parent?`. -/
structure Relinked (s t : Store) (child : NodeId) (parent? : Option NodeId) : Prop where
  size : t.slots.size = s.slots.size
  parentOf_self : t.parentOf child = parent?
  parentOf_of_ne : ∀ x, x ≠ child → t.parentOf x = s.parentOf x
  contains : ∀ x, t.contains x = s.contains x
  faceOf : ∀ x, t.faceOf x = s.faceOf x
  trees : t.trees = s.trees

namespace Relinked

variable {s t u : Store} {child x : NodeId} {parent? parent'? : Option NodeId}

/-- Of two changes of the same link the second one counts. -/
theorem trans (h : Relinked s t child parent?) (h' : Relinked t u child parent'?) :
    Relinked s u child parent'? where
  size := h'.size.trans h.size
  parentOf_self := h'.parentOf_self
  parentOf_of_ne x hx := (h'.parentOf_of_ne x hx).trans (h.parentOf_of_ne x hx)
  contains x := (h'.contains x).trans (h.contains x)
  faceOf x := (h'.faceOf x).trans (h.faceOf x)
  trees := h'.trees.trans h.trees

/-- Cutting or making a link changes no top. -/
theorem topOf (h : Relinked s t child parent?) (r : RootId) : t.topOf r = s.topOf r := by
  simp only [Store.topOf, tree?, h.trees]

/-- What is a top stays one, and nothing else becomes one. -/
theorem isTop (h : Relinked s t child parent?) (x : NodeId) : t.isTop x = s.isTop x := by
  simp only [Store.isTop, h.trees]

/-- A statement is below the moved one as before. -/
theorem below_iff (h : Relinked s t child parent?) : t.Below child x ↔ s.Below child x :=
  below_congr_of_ne h.parentOf_of_ne

/-- What stands above a statement outside the moved subtree stays the same. -/
theorem below_iff_of_not_below (h : Relinked s t child parent?) (hx : ¬ s.Below child x)
    {a : NodeId} : t.Below a x ↔ s.Below a x := by
  refine below_congr fun y hy => h.parentOf_of_ne y ?_
  rintro rfl
  exact hx hy

/-- Cutting a link keeps all chains of parents finite. -/
theorem grounded_of_none (h : Relinked s t child none) (hx : s.Grounded x) : t.Grounded x := by
  refine hx.of_changed fun y _ => ?_
  by_cases hy : y = child
  · exact .inr (.top (hy ▸ h.parentOf_self))
  · exact .inl (h.parentOf_of_ne y hy)

/-- A link to a parent outside the subtree keeps all chains of parents finite. -/
theorem grounded_of_some {parent : NodeId} (h : Relinked s t child (some parent))
    (hnot : ¬ s.Below child parent) (hparent : s.Grounded parent) (hx : s.Grounded x) :
    t.Grounded x := by
  have hp : t.Grounded parent := by
    refine hparent.of_parentOf_eq fun y hy => h.parentOf_of_ne y ?_
    rintro rfl
    exact hnot hy
  refine hx.of_changed fun y _ => ?_
  by_cases hy : y = child
  · exact .inr (.under (hy ▸ h.parentOf_self) hp)
  · exact .inl (h.parentOf_of_ne y hy)

end Relinked

/-! ## Cutting a link -/

section Unlink

variable {s : Store} {parent child : NodeId} {index : Nat}

/-- Cut the link between a child and its parent. -/
def unlink (s : Store) (parent child : NodeId) (index : Nat) : Store :=
  (s.update parent fun n => { n with children := n.children.eraseIdx index }).update child
    fun n => { n with parent := none }

/-- The parent loses the child at the index. -/
theorem childrenOf_unlink_self (hparent : s.contains parent = true) :
    (s.unlink parent child index).childrenOf parent =
      (s.childrenOf parent).eraseIdx index := by
  obtain ⟨p, hp⟩ := contains_iff.mp hparent
  rw [unlink, childrenOf_update (by intro n; rfl), childrenOf_update_self hp,
    childrenOf_of_get? hp]

/-- Other statements keep their children when a link is cut. -/
theorem childrenOf_unlink_of_ne {x : NodeId} (hx : x ≠ parent) :
    (s.unlink parent child index).childrenOf x = s.childrenOf x := by
  rw [unlink, childrenOf_update (by intro n; rfl), childrenOf_update_of_ne hx]

/-- Cutting a link moves no statement to another tree. -/
theorem rootOf_unlink (x : NodeId) : (s.unlink parent child index).rootOf x = s.rootOf x := by
  rw [unlink, rootOf_update (by intro n; rfl), rootOf_update (by intro n; rfl)]

/-- Cutting a link changes the parent of one statement only. -/
theorem relinked_unlink (s : Store) (parent child : NodeId) (index : Nat) :
    Relinked s (s.unlink parent child index) child none where
  size := by rw [unlink, size_slots_update, size_slots_update]
  parentOf_self := by
    rw [unlink, parentOf, get?_update_self]
    rcases (s.update parent _).get? child with _ | n <;> rfl
  parentOf_of_ne x hx := by
    rw [unlink, parentOf_update_of_ne hx, parentOf_update (by intro n; rfl)]
  contains x := by rw [unlink, contains_update, contains_update]
  faceOf x := by rw [unlink, faceOf_update (by intro n; rfl), faceOf_update (by intro n; rfl)]
  trees := rfl

/-- The children and parents still agree after a link has been cut. -/
theorem Wired.unlink (w : s.Wired) (hindex : (s.childrenOf parent).idxOf? child = some index) :
    (s.unlink parent child index).Wired := by
  have hmem : child ∈ s.childrenOf parent :=
    List.isSome_idxOf?.mp (by rw [hindex]; rfl)
  have hparent := contains_of_mem_childrenOf hmem
  have herase : (s.unlink parent child index).childrenOf parent =
      (s.childrenOf parent).erase child := by
    rw [childrenOf_unlink_self hparent, List.erase_eq_eraseIdx, hindex]
  have hlink := relinked_unlink s parent child index
  constructor
  · intro p c
    by_cases hc : c = child
    · subst hc
      rw [hlink.parentOf_self]
      simp only [reduceCtorEq, iff_false]
      by_cases hp : p = parent
      · subst hp
        rw [herase, (w.nodup_children p).mem_erase_iff]
        exact fun h => h.1 rfl
      · rw [childrenOf_unlink_of_ne hp]
        exact fun h => hp (w.eq_of_mem_of_mem h hmem)
    · rw [hlink.parentOf_of_ne c hc, ← w.mem_children]
      by_cases hp : p = parent
      · subst hp
        rw [herase, (w.nodup_children p).mem_erase_iff]
        exact and_iff_right hc
      · rw [childrenOf_unlink_of_ne hp]
  · intro p
    by_cases hp : p = parent
    · subst hp
      rw [herase]
      exact (w.nodup_children p).erase child
    · rw [childrenOf_unlink_of_ne hp]
      exact w.nodup_children p
  · intro x
    exact hlink.grounded_of_none (w.grounded x)

/-- A statement whose link has been cut is a detached subtree of the same tree. -/
theorem Owned.unlink (o : s.Owned) (hindex : (s.childrenOf parent).idxOf? child = some index) :
    (s.unlink parent child index).Owned := by
  have hlink := relinked_unlink s parent child index
  refine ⟨o.wired.unlink hindex, ⟨?_, ?_, ?_⟩, o.affiliated.of_trees_eq hlink.trees⟩
  · intro c p hp
    by_cases hc : c = child
    · rw [hc, hlink.parentOf_self] at hp
      cases hp
    · rw [hlink.parentOf_of_ne c hc] at hp
      rw [rootOf_unlink, rootOf_unlink]
      exact o.rooted.rootOf_child c p hp
  · intro r x hx
    rw [hlink.topOf] at hx
    rw [rootOf_unlink]
    exact o.rooted.rootOf_top r x hx
  · intro r x hx
    rw [hlink.topOf] at hx
    by_cases hxc : x = child
    · rw [hxc, hlink.parentOf_self]
    · rw [hlink.parentOf_of_ne x hxc]
      exact o.rooted.parentOf_top r x hx

/-- Cut the link between a statement and its parent, if it has one. -/
def detach (s : Store) (child : NodeId) : Store :=
  match s.parentOf child with
  | some parent => s.unlink parent child ((s.childrenOf parent).idxOf child)
  | none => s

/-- The first index of a member of a list is found. -/
theorem idxOf?_of_mem {items : List NodeId} (h : child ∈ items) :
    items.idxOf? child = some (items.idxOf child) := by
  obtain ⟨index, hindex⟩ := Option.isSome_iff_exists.mp (List.isSome_idxOf?.mpr h)
  rw [List.idxOf_eq_getD_idxOf?, hindex, Option.getD_some]

/-- Detaching a statement changes its parent only. -/
theorem relinked_detach (s : Store) (child : NodeId) : Relinked s (s.detach child) child none := by
  unfold detach
  split
  · exact relinked_unlink s _ child _
  · next h => exact ⟨rfl, h, fun _ _ => rfl, fun _ => rfl, fun _ => rfl, rfl⟩

/-- Detaching a statement moves none to another tree. -/
theorem rootOf_detach (s : Store) (child x : NodeId) :
    (s.detach child).rootOf x = s.rootOf x := by
  unfold detach
  split
  · exact rootOf_unlink x
  · rfl

/-- Detaching a statement keeps the invariant. -/
theorem Owned.detach (o : s.Owned) (child : NodeId) : (s.detach child).Owned := by
  unfold Store.detach
  split
  · next h => exact o.unlink (idxOf?_of_mem (o.wired.mem_of_parentOf h))
  · exact o

end Unlink

/-! ## Making a link -/

section Link

variable {s : Store} {parent child : NodeId} {index? : Option Nat}

/-- Link a statement to a parent. -/
def link (s : Store) (parent child : NodeId) (index? : Option Nat) : Store :=
  (s.update parent (·.insertChild child index?)).update child
    fun n => { n with parent := some parent }

/-- The parent gets the child at some place. -/
theorem childrenOf_link_self (hparent : s.contains parent = true) (child : NodeId)
    (index? : Option Nat) : ∃ i ≤ (s.childrenOf parent).length,
      (s.link parent child index?).childrenOf parent =
        (s.childrenOf parent).insertIdx i child := by
  obtain ⟨p, hp⟩ := contains_iff.mp hparent
  refine ⟨min (index?.getD p.children.length) p.children.length, ?_, ?_⟩
  · rw [childrenOf_of_get? hp]
    exact Nat.min_le_right _ _
  · rw [link, childrenOf_update (by intro n; rfl), childrenOf_update_self hp,
      childrenOf_of_get? hp]
    rfl

/-- Other statements keep their children when a link is made. -/
theorem childrenOf_link_of_ne {x : NodeId} (hx : x ≠ parent) :
    (s.link parent child index?).childrenOf x = s.childrenOf x := by
  rw [link, childrenOf_update (by intro n; rfl), childrenOf_update_of_ne hx]

/-- Making a link moves no statement to another tree. -/
theorem rootOf_link (x : NodeId) : (s.link parent child index?).rootOf x = s.rootOf x := by
  rw [link, rootOf_update (by intro n; rfl), rootOf_update (by intro n; rfl)]

/-- Making a link changes the parent of one statement only. -/
theorem relinked_link (hchild : s.contains child = true) (parent : NodeId)
    (index? : Option Nat) : Relinked s (s.link parent child index?) child (some parent) where
  size := by rw [link, size_slots_update, size_slots_update]
  parentOf_self := by
    have hlive : (s.update parent (·.insertChild child index?)).contains child = true := by
      rw [contains_update]
      exact hchild
    obtain ⟨c, hc⟩ := contains_iff.mp hlive
    rw [link, parentOf_update_self hc]
  parentOf_of_ne x hx := by
    rw [link, parentOf_update_of_ne hx, parentOf_update (by intro n; rfl)]
  contains x := by rw [link, contains_update, contains_update]
  faceOf x := by rw [link, faceOf_update (by intro n; rfl), faceOf_update (by intro n; rfl)]
  trees := rfl

/-- The children and parents agree after a detached statement has been linked to a
parent outside its subtree. -/
theorem Wired.link (w : s.Wired) (hparent : s.contains parent = true)
    (hchild : s.contains child = true) (hnone : s.parentOf child = none)
    (hnot : ¬ s.Below child parent) (index? : Option Nat) :
    (s.link parent child index?).Wired := by
  have hlink := relinked_link hchild parent index?
  obtain ⟨i, hi, hinsert⟩ := childrenOf_link_self hparent child index?
  have hfresh : ∀ p, child ∉ s.childrenOf p := by
    intro p hmem
    rw [w.parentOf_of_mem hmem] at hnone
    cases hnone
  constructor
  · intro p c
    by_cases hp : p = parent
    · subst hp
      rw [hinsert, List.mem_insertIdx hi]
      by_cases hc : c = child
      · simp [hc, hlink.parentOf_self]
      · rw [hlink.parentOf_of_ne c hc, w.mem_children]
        exact or_iff_right hc
    · rw [childrenOf_link_of_ne hp]
      by_cases hc : c = child
      · subst hc
        rw [hlink.parentOf_self]
        simp [hfresh p, Ne.symm hp]
      · rw [hlink.parentOf_of_ne c hc, w.mem_children]
  · intro p
    by_cases hp : p = parent
    · subst hp
      rw [hinsert, (List.perm_insertIdx child _ hi).nodup_iff, List.nodup_cons]
      exact ⟨hfresh p, w.nodup_children p⟩
    · rw [childrenOf_link_of_ne hp]
      exact w.nodup_children p
  · intro x
    exact hlink.grounded_of_some hnot (w.grounded parent) (w.grounded x)

end Link

/-! ## Entering another tree -/

section Reroot

variable {s t : Store} {child : NodeId} {root : RootId}

/-- Two stores that differ in the tree of the statements of one subtree. -/
structure Rerooted (s t : Store) (child : NodeId) (root : RootId) : Prop where
  size : t.slots.size = s.slots.size
  get?_below : ∀ x, s.Below child x → t.get? x = (s.get? x).map fun n => { n with root }
  get?_of_not_below : ∀ x, ¬ s.Below child x → t.get? x = s.get? x
  trees : t.trees = s.trees

namespace Rerooted

variable (h : Rerooted s t child root) (x : NodeId)

include h

theorem get?_eq : t.get? x = s.get? x ∨ t.get? x = (s.get? x).map fun n => { n with root } := by
  by_cases hx : s.Below child x
  · exact .inr (h.get?_below x hx)
  · exact .inl (h.get?_of_not_below x hx)

theorem parentOf : t.parentOf x = s.parentOf x := by
  rw [Store.parentOf, Store.parentOf]
  rcases h.get?_eq x with heq | heq <;> rw [heq]
  rcases s.get? x with _ | n <;> rfl

theorem childrenOf : t.childrenOf x = s.childrenOf x := by
  rw [Store.childrenOf, Store.childrenOf]
  rcases h.get?_eq x with heq | heq <;> rw [heq]
  rcases s.get? x with _ | n <;> rfl

theorem faceOf : t.faceOf x = s.faceOf x := by
  rw [Store.faceOf, Store.faceOf]
  rcases h.get?_eq x with heq | heq <;> rw [heq]
  rcases s.get? x with _ | n <;> rfl

theorem contains : t.contains x = s.contains x := by
  rw [Store.contains, Store.contains]
  rcases h.get?_eq x with heq | heq <;> rw [heq]
  rw [Option.isSome_map]

theorem rootOf_of_not_below (hx : ¬ s.Below child x) : t.rootOf x = s.rootOf x := by
  rw [Store.rootOf, Store.rootOf, h.get?_of_not_below x hx]

theorem rootOf_below (hchild : s.contains child = true) (hx : s.Below child x) :
    t.rootOf x = some root := by
  obtain ⟨n, hn⟩ := contains_iff.mp (contains_of_above hchild hx)
  rw [Store.rootOf, h.get?_below x hx, hn]
  rfl

end Rerooted

/-- A subtree that hangs below a statement of another tree satisfies the invariant
again once it has entered that tree. -/
theorem Rerooted.owned {u : Store} {parent : NodeId} (h : Rerooted t u child root)
    (w : t.Wired) (o : s.Owned) (hlink : Relinked s t child (some parent))
    (hroots : ∀ x, t.rootOf x = s.rootOf x) (hroot : s.rootOf parent = some root)
    (htop : s.isTop child = false) : u.Owned := by
  have hchild : t.contains child = true := contains_of_parentOf hlink.parentOf_self
  have hnot : ¬ t.Below child parent := (w.grounded parent).not_below_parent hlink.parentOf_self
  have htopOf : ∀ r x, u.topOf r = some x → s.topOf r = some x ∧ x ≠ child := by
    intro r x hx
    have hs : s.topOf r = some x := by
      rw [← hlink.topOf, ← hx]
      simp only [topOf, tree?, h.trees]
    refine ⟨hs, ?_⟩
    rintro rfl
    exact isTop_eq_false_iff.mp htop r hs
  refine ⟨w.congr h.parentOf h.childrenOf, ⟨?_, ?_, ?_⟩,
    o.affiliated.of_trees_eq (h.trees.trans hlink.trees)⟩
  · intro c p hp
    rw [h.parentOf] at hp
    by_cases hc : t.Below child c
    · by_cases heq : c = child
      · -- the moved statement itself has entered the tree of its parent
        subst heq
        rw [hlink.parentOf_self] at hp
        cases hp
        rw [h.rootOf_below c hchild .self, h.rootOf_of_not_below parent hnot, hroots, hroot]
      · have hbelow := ((below_iff_of_parentOf hp).mp hc).resolve_left (Ne.symm heq)
        rw [h.rootOf_below c hchild hc, h.rootOf_below p hchild hbelow]
    · have heq : c ≠ child := by
        rintro rfl
        exact hc .self
      have hnotp : ¬ t.Below child p := fun hb => hc (.under hp hb)
      rw [h.rootOf_of_not_below c hc, h.rootOf_of_not_below p hnotp, hroots, hroots]
      rw [hlink.parentOf_of_ne c heq] at hp
      exact o.rooted.rootOf_child c p hp
  · intro r x hx
    obtain ⟨hs, hne⟩ := htopOf r x hx
    have hnone := o.rooted.parentOf_top r x hs
    rw [← hlink.parentOf_of_ne x hne] at hnone
    have hnotx : ¬ t.Below child x := fun hb => hne (hb.eq_of_parentOf_eq_none hnone).symm
    rw [h.rootOf_of_not_below x hnotx, hroots]
    exact o.rooted.rootOf_top r x hs
  · intro r x hx
    obtain ⟨hs, hne⟩ := htopOf r x hx
    rw [h.parentOf, hlink.parentOf_of_ne x hne]
    exact o.rooted.parentOf_top r x hs

end Reroot
end Store

namespace StoreM

open Store

variable {s : Store} {parent child : NodeId}

/-- A subtree enters another tree.  When its statement stands there already, so does
everything below it, and the shortcut is right. -/
theorem assignRoot_spec (w : s.Wired) (hchild : s.contains child = true)
    (hsame : ∀ x, s.Below child x → s.rootOf x = s.rootOf child) (root : RootId) :
    Succeeds (assignRoot child root) s fun _ t => Rerooted s t child root := by
  obtain ⟨n, hn⟩ := contains_iff.mp hchild
  rw [assignRoot]
  apply Yields.bind_of_eq (node_apply hn)
  by_cases hroot : n.root = root
  · rw [if_pos hroot]
    refine Yields.pure ⟨rfl, fun x hx => ?_, fun x _ => rfl, rfl⟩
    have hx' := hsame x hx
    rw [rootOf_of_get? hn, hroot] at hx'
    rcases hget : s.get? x with _ | m
    · rfl
    · rw [rootOf_of_get? hget] at hx'
      cases m
      cases hx'
      rfl
  · rw [if_neg hroot]
    obtain ⟨t, hrun, hsize, htrees, hin, hout⟩ :=
      updateBelow_spec w hchild fun n => { n with root }
    exact Yields.of_eq hrun ⟨hsize, hin, hout, htrees⟩

/-! ## Removing a child -/

/-- Removing a child that is listed succeeds and cuts the link. -/
theorem removeChild_apply {index : Nat}
    (hindex : (s.childrenOf parent).idxOf? child = some index)
    (hchild : s.contains child = true) :
    removeChild parent child s = (.ok index, s.unlink parent child index) := by
  have hmem : child ∈ s.childrenOf parent := List.isSome_idxOf?.mp (by rw [hindex]; rfl)
  obtain ⟨p, hp⟩ := contains_iff.mp (contains_of_mem_childrenOf hmem)
  have hquery : s.childIndex parent child = .ok index := by
    rw [childrenOf_of_get? hp] at hindex
    simp only [childIndex, node_of_get? hp, bind, Except.bind, hindex, pure, Except.pure]
  have hlive : (s.update parent fun n =>
      { n with children := n.children.eraseIdx index }).contains child = true := by
    rw [contains_update]
    exact hchild
  obtain ⟨c, hc⟩ := contains_iff.mp hlive
  simp only [removeChild, bind_apply, query_apply, hquery, update_apply hp, update_apply hc,
    pure_apply]
  rfl

/-- A statement that is no child cannot be taken away, and nothing happens. -/
theorem removeChild_of_error {e : Failure} (h : s.childIndex parent child = .error e) :
    removeChild parent child s = (.error e, s) := by
  rw [removeChild, bind_apply, query_apply, h]

/-- A child is taken away from its parent. -/
theorem removeChild_succeeds (o : s.Owned) (h : s.parentOf child = some parent) :
    Succeeds (removeChild parent child) s fun _ t =>
      t.Owned ∧ Relinked s t child none ∧ ∀ x, t.rootOf x = s.rootOf x := by
  have hmem := o.wired.mem_of_parentOf h
  obtain ⟨index, hindex⟩ := Option.isSome_iff_exists.mp (List.isSome_idxOf?.mpr hmem)
  exact Yields.of_eq (removeChild_apply hindex (contains_of_parentOf h))
    ⟨o.unlink hindex, relinked_unlink s parent child index, rootOf_unlink⟩

/-- The place of a statement among the children of a parent is found when it is one. -/
theorem childIndex_eq_ok_iff {index : Nat} :
    s.childIndex parent child = .ok index ↔
      (s.childrenOf parent).idxOf? child = some index := by
  rw [childIndex, Store.node, Store.childrenOf]
  rcases s.get? parent with _ | p
  · simp [bind, Except.bind]
  · rcases h : p.children.idxOf? child with _ | i <;>
      simp [bind, Except.bind, pure, Except.pure, throw, throwThe, MonadExceptOf.throw, h]

/-! ## Adding a child -/

/-- The four conditions under which one statement may be put below another. -/
structure Attachable (s : Store) (parent child : NodeId) : Prop where
  parent_live : s.contains parent = true
  child_live : s.contains child = true
  not_below : ¬ s.Below child parent
  not_top : s.isTop child = false

/-- The check succeeds exactly when one statement may be put below the other. -/
theorem attachable_iff (w : s.Wired) :
    s.checkAttach parent child = .ok () ↔ Attachable s parent child := by
  rw [checkAttach_eq_ok_iff]
  constructor
  · rintro ⟨hparent, hchild, hnot, htop⟩
    refine ⟨hparent, hchild, ?_, htop⟩
    rw [← w.isAncestorOrSelf_iff hparent, hnot]
    exact Bool.false_ne_true
  · rintro ⟨hparent, hchild, hnot, htop⟩
    refine ⟨hparent, hchild, ?_, htop⟩
    rw [← w.isAncestorOrSelf_iff hparent, Bool.not_eq_true] at hnot
    exact hnot

/-- A statement that may not be put below another stays where it is. -/
theorem addChild_of_error {e : Failure} (h : s.checkAttach parent child = .error e)
    (index? : Option Nat) : addChild parent child index? s = (.error e, s) := by
  rw [addChild, bind_apply, query_apply, h]

/-- A statement may be put below a parent, whether it still hangs below another one or not. -/
theorem Attachable.detach (h : Attachable s parent child) :
    Attachable (s.detach child) parent child where
  parent_live := by rw [(relinked_detach s child).contains]; exact h.parent_live
  child_live := by rw [(relinked_detach s child).contains]; exact h.child_live
  not_below := fun hb => h.not_below ((relinked_detach s child).below_iff.mp hb)
  not_top := by rw [(relinked_detach s child).isTop]; exact h.not_top

/-- Link a detached statement to a parent, and let its subtree enter the tree of the parent. -/
def linkChild (parent child : NodeId) (index? : Option Nat) : StoreM Unit := do
  let root := (← node parent).root
  update parent (·.insertChild child index?)
  update child fun n => { n with parent := some parent }
  assignRoot child root

/-- Only the tree of the moved subtree is still to be changed once the link is made. -/
theorem linkChild_rerooted (o : s.Owned) (h : Attachable s parent child)
    (hnone : s.parentOf child = none) (index? : Option Nat) :
    Succeeds (linkChild parent child index?) s fun _ t =>
      ∃ root, s.rootOf parent = some root ∧
        Rerooted (s.link parent child index?) t child root := by
  obtain ⟨p, hp⟩ := contains_iff.mp h.parent_live
  have hlive : (s.update parent (·.insertChild child index?)).contains child = true := by
    rw [contains_update]
    exact h.child_live
  obtain ⟨c, hc⟩ := contains_iff.mp hlive
  have w := o.wired.link h.parent_live h.child_live hnone h.not_below index?
  have hlink := relinked_link h.child_live parent index?
  apply Yields.bind_of_eq (node_apply hp)
  apply Yields.bind_of_eq (update_apply hp _)
  apply Yields.bind_of_eq (update_apply hc _)
  change Succeeds (assignRoot child p.root) (s.link parent child index?) _
  refine (assignRoot_spec w ?_ ?_ p.root).imp fun _ t ht => ⟨p.root, rootOf_of_get? hp, ht⟩
  · rw [hlink.contains]
    exact h.child_live
  · intro x hx
    rw [rootOf_link, rootOf_link]
    exact o.rooted.rootOf_eq_of_below (hlink.below_iff.mp hx)

/-- A detached statement is linked to a parent, and its subtree enters the tree of
the parent. -/
theorem linkChild_succeeds (o : s.Owned) (h : Attachable s parent child)
    (hnone : s.parentOf child = none) (index? : Option Nat) :
    Succeeds (linkChild parent child index?) s fun _ t =>
      t.Owned ∧ Relinked s t child (some parent) ∧
        ∀ x, t.childrenOf x = (s.link parent child index?).childrenOf x := by
  have w := o.wired.link h.parent_live h.child_live hnone h.not_below index?
  have hlink := relinked_link h.child_live parent index?
  refine (linkChild_rerooted o h hnone index?).imp ?_
  intro _ t ⟨root, hroot, ht⟩
  refine ⟨ht.owned w o hlink rootOf_link hroot h.not_top, ?_, ht.childrenOf⟩
  exact {
    size := ht.size.trans hlink.size
    parentOf_self := by rw [ht.parentOf, hlink.parentOf_self]
    parentOf_of_ne := fun x hx => by rw [ht.parentOf, hlink.parentOf_of_ne x hx]
    contains := fun x => by rw [ht.contains, hlink.contains]
    faceOf := fun x => by rw [ht.faceOf, hlink.faceOf]
    trees := ht.trees.trans hlink.trees }

/-- A statement that may be put below another is detached first, and then linked. -/
theorem addChild_apply (o : s.Owned) (h : Attachable s parent child) (index? : Option Nat) :
    addChild parent child index? s = linkChild parent child index? (s.detach child) := by
  obtain ⟨c, hc⟩ := contains_iff.mp h.child_live
  have hcheck := (attachable_iff o.wired).mpr h
  rw [addChild, bind_apply, query_apply, hcheck]
  dsimp only
  rw [bind_apply, node_apply hc]
  dsimp only
  rcases hprev : c.parent with _ | previous
  · have hdetach : s.detach child = s := by rw [Store.detach, parentOf_of_get? hc, hprev]
    rw [hdetach]
    rfl
  · have hparentOf : s.parentOf child = some previous := by rw [parentOf_of_get? hc, hprev]
    have hindex := idxOf?_of_mem (o.wired.mem_of_parentOf hparentOf)
    have hdetach : s.detach child =
        s.unlink previous child ((s.childrenOf previous).idxOf child) := by
      rw [Store.detach, hparentOf]
    dsimp only
    rw [bind_apply, removeChild_apply hindex h.child_live, hdetach]
    rfl

/-- A detached statement that may be put below another is put there. -/
theorem addChild_detached_succeeds (o : s.Owned) (h : Attachable s parent child)
    (hnone : s.parentOf child = none) (index? : Option Nat) :
    Succeeds (addChild parent child index?) s fun _ t =>
      t.Owned ∧ Relinked s t child (some parent) ∧
        ∀ x, t.childrenOf x = (s.link parent child index?).childrenOf x := by
  have hdetach : s.detach child = s := by rw [Store.detach, hnone]
  unfold Succeeds Yields
  rw [addChild_apply o h, hdetach]
  exact linkChild_succeeds o h hnone index?

/-- A statement that may be put below another is put there.  Its old parent loses it
first; that does not touch the conditions, because the old parent of a statement
outside the chain of the new parent is not part of that chain as a child. -/
theorem addChild_succeeds (o : s.Owned) (h : Attachable s parent child)
    (index? : Option Nat) :
    Succeeds (addChild parent child index?) s fun _ t =>
      t.Owned ∧ Relinked s t child (some parent) := by
  have hdetach := relinked_detach s child
  unfold Succeeds Yields
  rw [addChild_apply o h]
  refine (linkChild_succeeds (o.detach child) h.detach hdetach.parentOf_self index?).imp ?_
  intro _ t ⟨ot, ht, _⟩
  exact ⟨ot, hdetach.trans ht⟩

end StoreM
end StatementForest
