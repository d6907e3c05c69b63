import Mathlib.Data.List.Dedup
import StatementForest.Proofs.Store.ReplaceChildEffect

/-!
# What replacing all children of a key does

The children that have a key leave one after another, and the new ones are added one after
another, each taken away from where it stands at that moment.  A new child may be one of those
that leave, may stand below one of them or below another new one, and may be given twice.  In
the end only its last addition counts: the new children follow those that stay in the order of
their last occurrences, and every other statement has lost those that it had among them.

Main results:

- Theorem `Store.get?_detachAll`: what the statements are once some children have left.
- Theorems `Store.Exchanged.append`, `Store.Exchanged.of_detachAll`: one more addition, and the
  two parts of a replacement together.
- Theorem `StoreM.replaceChildrenWithKey_ok_exactly`: when the children of a key are replaced,
  which children are given back, and which store comes of it.
-/

namespace StatementForest
namespace Store

variable {s t u : Store} {parent child a x : NodeId} {gone new rest items : List NodeId}

/-! ## Children that leave -/

/-- Leaving out one number and then others is leaving out all. -/
theorem filter_filter_cons (items : List NodeId) (c : NodeId) (rest : List NodeId) :
    (items.filter (· ∉ [c])).filter (· ∉ rest) = items.filter (· ∉ c :: rest) := by
  rw [List.filter_filter]
  refine List.filter_congr fun d _ => ?_
  by_cases hd : d = c <;> simp [hd]

/-- Erasing a number from different ones is leaving it out. -/
theorem erase_eq_filter_not_mem (h : items.Nodup) (c : NodeId) :
    items.erase c = items.filter (· ∉ [c]) := by
  rw [h.erase_eq_filter]
  refine List.filter_congr fun d _ => ?_
  by_cases hd : d = c <;> simp [hd]

/-- Several statements are detached one after another. -/
def detachAll (s : Store) (gone : List NodeId) : Store := gone.foldl detach s

/-- Detaching statements keeps the slots. -/
theorem size_detachAll (s : Store) (gone : List NodeId) :
    (s.detachAll gone).slots.size = s.slots.size := by
  induction gone generalizing s with
  | nil => rfl
  | cons c rest ih => exact (ih _).trans (relinked_detach s c).size

/-- Detaching statements keeps the trees. -/
theorem trees_detachAll (s : Store) (gone : List NodeId) :
    (s.detachAll gone).trees = s.trees := by
  induction gone generalizing s with
  | nil => rfl
  | cons c rest ih => exact (ih _).trans (relinked_detach s c).trees

/-- Detaching statements moves none to another tree. -/
theorem rootOf_detachAll (s : Store) (gone : List NodeId) (x : NodeId) :
    (s.detachAll gone).rootOf x = s.rootOf x := by
  induction gone generalizing s with
  | nil => rfl
  | cons c rest ih => exact (ih _).trans (rootOf_detach s c x)

/-- Statements that have left name no parent, and no statement lists them. -/
theorem get?_detachAll (o : s.Owned) (gone : List NodeId) (x : NodeId) :
    (s.detachAll gone).get? x = (s.get? x).map fun n =>
      { n with
        parent := if x ∈ gone then none else n.parent
        children := n.children.filter (· ∉ gone) } := by
  induction gone generalizing s with
  | nil =>
    rcases hn : s.get? x with _ | n <;> simp [detachAll, hn]
  | cons c rest ih =>
    change ((s.detach c).detachAll rest).get? x = _
    rw [ih (o.detach c), get?_detach o.wired]
    rcases hn : s.get? x with _ | n
    · rfl
    have hnodup := o.wired.nodup_children x
    rw [childrenOf_of_get? hn] at hnodup
    simp only [Option.map_some, erase_eq_filter_not_mem hnodup, filter_filter_cons]
    by_cases hx : x = c <;> simp [hx]

/-- A detached statement has no parent, and no statement lists one that is detached. -/
theorem get?_detachAll_of_get? (o : s.Owned) (gone : List NodeId) {n : Node}
    (hn : s.get? x = some n) : (s.detachAll gone).get? x = some
      { n with
        parent := if x ∈ gone then none else n.parent
        children := n.children.filter (· ∉ gone) } := by
  rw [get?_detachAll o, hn, Option.map_some]

/-- Whatever stands below a statement stays there when some are detached, unless one of these
stands strictly below it. -/
theorem below_detachAll_iff (h : ∀ c ∈ gone, s.Below a c → a = c) :
    (s.detachAll gone).Below a x ↔ s.Below a x := by
  induction gone generalizing s with
  | nil => exact Iff.rfl
  | cons c rest ih =>
    have hfirst : ∀ y, (s.detach c).Below a y ↔ s.Below a y := fun y =>
      (relinked_detach s c).below_iff_of_detached (h c List.mem_cons_self)
    refine Iff.trans (ih fun d hd hb => ?_) (hfirst x)
    exact h d (List.mem_cons_of_mem _ hd) ((hfirst d).mp hb)

/-! ## What an exchange is -/

/-- The children of a statement after the children in `gone` have left `parent` and those in
`new` have been added.  Of equal ones among these the last one counts. -/
def childrenOnceExchanged (s : Store) (parent : NodeId) (gone new : List NodeId) (x : NodeId) :
    List NodeId :=
  if x = parent then
    (s.childrenOf parent).filter (fun c => c ∉ gone ∧ c ∉ new) ++ new.dedup
  else (s.childrenOf x).filter (· ∉ new)

/-- A child that is added at the end is exchanged for no other one. -/
theorem childrenOnceAttached_eq_exchanged (w : s.Wired) (parent child x : NodeId) :
    s.childrenOnceAttached parent child none x =
      s.childrenOnceExchanged parent [] [child] x := by
  have herase : ∀ y, (s.childrenOf y).erase child = (s.childrenOf y).filter (· ∉ [child]) :=
    fun y => erase_eq_filter_not_mem (w.nodup_children y) child
  unfold childrenOnceAttached childrenOnceExchanged
  by_cases hparent : x = parent
  · have hfilter : (s.childrenOf parent).filter (fun c => c ∉ ([] : List NodeId) ∧
        c ∉ [child]) = (s.childrenOf parent).erase child := by
      simp [herase]
    rw [if_pos hparent, if_pos hparent, hfilter]
    rfl
  · rw [if_neg hparent, if_neg hparent, ← herase]
    split
    · rfl
    · next hprevious =>
      refine (List.erase_of_not_mem fun hmem => hprevious ?_).symm
      exact w.parentOf_of_mem hmem

/-- No statement lists one that is detached. -/
theorem childrenOf_detachAll (o : s.Owned) (gone : List NodeId) (x : NodeId) :
    (s.detachAll gone).childrenOf x = (s.childrenOf x).filter (· ∉ gone) := by
  rw [childrenOf, childrenOf, get?_detachAll o]
  rcases s.get? x with _ | n <;> rfl

/-- The children of all statements when some leave before others are added. -/
theorem childrenOnceExchanged_detachAll (o : s.Owned)
    (hgone : ∀ c ∈ gone, s.parentOf c = some parent) (x : NodeId) :
    (s.detachAll gone).childrenOnceExchanged parent [] new x =
      s.childrenOnceExchanged parent gone new x := by
  unfold childrenOnceExchanged
  rw [childrenOf_detachAll o, childrenOf_detachAll o, List.filter_filter, List.filter_filter]
  by_cases hx : x = parent
  · simp [hx, Bool.and_comm]
  · -- the children that have left were those of the parent
    rw [if_neg hx, if_neg hx]
    refine List.filter_congr fun c hc => ?_
    have hstays : c ∉ gone := by
      intro hmem
      have hparent := hgone c hmem
      rw [o.wired.parentOf_of_mem hc] at hparent
      exact hx (Option.some.inj hparent)
    simp [hstays]

/-- The second store is the first one in which the children in `gone` have left `parent` and
those in `new` have been added with all that stands below them.  Each statement changes in the
fields that are named here, and in no other one.  A child that has left and is not added again
is live and has no parent. -/
structure Exchanged (s t : Store) (parent : NodeId) (gone new : List NodeId) : Prop where
  size : t.slots.size = s.slots.size
  trees : t.trees = s.trees
  vacant : ∀ x, s.get? x = none → t.get? x = none
  statement : ∀ x n, s.get? x = some n → ∃ root,
    t.get? x = some
      { n with
        root
        parent := if x ∈ new then some parent else if x ∈ gone then none else n.parent
        children := s.childrenOnceExchanged parent gone new x } ∧
    ((∃ c ∈ new, s.Below c x) → s.rootOf parent = some root) ∧
    ((¬ ∃ c ∈ new, s.Below c x) → root = n.root)
  left : ∀ x ∈ gone, x ∉ new → t.contains x = true ∧ t.parentOf x = none

namespace Exchanged

/-- A store is known when it is known what was exchanged. -/
theorem unique (h : Exchanged s t parent gone new) (h' : Exchanged s u parent gone new) :
    t = u := by
  refine eq_of_get? (h.size.trans h'.size.symm) (h.trees.trans h'.trees.symm) fun x => ?_
  rcases hn : s.get? x with _ | n
  · rw [h.vacant x hn, h'.vacant x hn]
  obtain ⟨root, ht, hin, hout⟩ := h.statement x n hn
  obtain ⟨root', hu, hin', hout'⟩ := h'.statement x n hn
  have hroot : root = root' := by
    by_cases hx : ∃ c ∈ new, s.Below c x
    · exact Option.some.inj ((hin hx).symm.trans (hin' hx))
    · exact (hout hx).trans (hout' hx).symm
  rw [ht, hu, hroot]

/-- Nothing happens when nothing is added. -/
theorem nil (s : Store) (parent : NodeId) : Exchanged s s parent [] [] where
  size := rfl
  trees := rfl
  vacant _ hx := hx
  statement x n hn := by
    refine ⟨n.root, ?_, by simp, fun _ => rfl⟩
    have hchildren : s.childrenOnceExchanged parent [] [] x = n.children := by
      rw [← childrenOf_of_get? hn]
      by_cases hx : x = parent <;> simp [childrenOnceExchanged, hx]
    rw [hn, hchildren]
    simp
  left _ hx := absurd hx List.not_mem_nil

/-- One addition. -/
theorem of_attached (w : s.Wired) (hnot : ¬ s.Below child parent)
    (h : Attached s t parent child none) : Exchanged s t parent [] [child] where
  size := h.size
  trees := h.trees
  vacant := h.vacant
  statement x n hn := by
    have hchildren := childrenOnceAttached_eq_exchanged w parent child x
    by_cases hx : s.Below child x
    · obtain ⟨root, hroot, ht⟩ := h.moved x n hn hx
      refine ⟨root, ?_, fun _ => hroot, fun hnone => absurd ⟨child, by simp, hx⟩ hnone⟩
      rw [ht, ← hchildren, childrenOnceAttached_of_below w hnot hx, childrenOf_of_get? hn]
      simp
    · refine ⟨n.root, ?_, ?_, fun _ => rfl⟩
      · have hne : x ≠ child := by
          rintro rfl
          exact hx .self
        rw [h.stayed x n hn hx, hchildren]
        simp [hne]
      · rintro ⟨c, hc, hb⟩
        rw [List.mem_singleton.mp hc] at hb
        exact absurd hb hx
  left _ hx := absurd hx List.not_mem_nil

/-- The children are those that are due. -/
theorem childrenOf_eq (h : Exchanged s t parent gone new) (hx : s.contains x = true) :
    t.childrenOf x = s.childrenOnceExchanged parent gone new x := by
  obtain ⟨n, hn⟩ := contains_iff.mp hx
  obtain ⟨root, ht, -⟩ := h.statement x n hn
  rw [childrenOf_of_get? ht]

/-- The parent stays in its tree. -/
theorem rootOf_parent (h : Exchanged s t parent gone new) (hparent : s.contains parent = true)
    (hnot : ¬ ∃ c ∈ new, s.Below c parent) : t.rootOf parent = s.rootOf parent := by
  obtain ⟨n, hn⟩ := contains_iff.mp hparent
  obtain ⟨root, ht, -, hout⟩ := h.statement parent n hn
  rw [rootOf_of_get? ht, rootOf_of_get? hn, hout hnot]

end Exchanged

/-- Only the last one of equal items stays when each is taken away before it is put at the
end. -/
theorem filter_append_dedup (items : List NodeId) (c : NodeId) (rest : List NodeId) :
    (items.filter (· ∉ [c]) ++ [c]).filter (· ∉ rest) ++ rest.dedup =
      items.filter (· ∉ c :: rest) ++ (c :: rest).dedup := by
  rw [List.filter_append, filter_filter_cons, List.append_assoc, List.dedup_cons]
  by_cases hc : c ∈ rest <;> simp [hc]

/-- What is below one of several statements when the first of them has moved and none of the
others stands above the place it has moved to. -/
theorem Relinked.exists_below_cons (h : Relinked s t child (some parent))
    (hrest : ∀ c ∈ rest, ¬ t.Below c parent) :
    (∃ c ∈ child :: rest, s.Below c x) ↔ s.Below child x ∨ ∃ c ∈ rest, t.Below c x := by
  constructor
  · rintro ⟨c, hc, hb⟩
    by_cases hfirst : s.Below child x
    · exact .inl hfirst
    · refine .inr ⟨c, (List.mem_cons.mp hc).resolve_left ?_, ?_⟩
      · rintro rfl
        exact hfirst hb
      · exact (h.below_iff_of_not_below hfirst).mpr hb
  · rintro (hb | ⟨c, hc, hb⟩)
    · exact ⟨child, List.mem_cons_self, hb⟩
    by_cases heq : c = child
    · rw [heq, h.below_iff] at hb
      exact ⟨child, List.mem_cons_self, hb⟩
    · refine ⟨c, List.mem_cons_of_mem _ hc, h.symm.below_of_not_above ?_ hb⟩
      rw [below_iff_of_parentOf h.parentOf_self]
      exact fun habove => habove.elim heq (hrest c hc)

namespace Exchanged

/-- The children of all statements when one addition comes before others. -/
theorem childrenOnceExchanged_cons (h : Exchanged s t parent [] [child])
    (hparent : s.contains parent = true) (hx : s.contains x = true) :
    t.childrenOnceExchanged parent [] rest x =
      s.childrenOnceExchanged parent [] (child :: rest) x := by
  have hchildren := h.childrenOf_eq hx
  have hsiblings := h.childrenOf_eq hparent
  unfold childrenOnceExchanged at hchildren hsiblings ⊢
  by_cases heq : x = parent
  · rw [if_pos rfl] at hsiblings
    rw [if_pos heq, if_pos heq, hsiblings]
    simpa using filter_append_dedup (s.childrenOf parent) child rest
  · rw [if_neg heq] at hchildren
    rw [if_neg heq, if_neg heq, hchildren, filter_filter_cons]

/-- One addition comes before others. -/
theorem append (h : Exchanged s t parent [] [child]) (hlink : Relinked s t child (some parent))
    (hchild : StoreM.Attachable s parent child) (hrest : ∀ c ∈ rest, ¬ t.Below c parent)
    (h' : Exchanged t u parent [] rest) : Exchanged s u parent [] (child :: rest) where
  size := h'.size.trans h.size
  trees := h'.trees.trans h.trees
  vacant x hx := h'.vacant x (h.vacant x hx)
  statement x n hn := by
    have hroot : t.rootOf parent = s.rootOf parent := by
      refine h.rootOf_parent hchild.parent_live ?_
      simpa using hchild.not_below
    have hbelow := hlink.exists_below_cons (x := x) hrest
    obtain ⟨first, ht, hin, hout⟩ := h.statement x n hn
    obtain ⟨root, hu, hin', hout'⟩ := h'.statement x _ ht
    refine ⟨root, ?_, fun hb => ?_, fun hnone => ?_⟩
    · rw [hu, h.childrenOnceExchanged_cons hchild.parent_live (contains_iff.mpr ⟨n, hn⟩)]
      by_cases hx : x = child <;> simp [hx]
    · -- of two moves the later one tells the tree
      by_cases hnext : ∃ c ∈ rest, t.Below c x
      · rw [← hroot]
        exact hin' hnext
      · rw [hout' hnext]
        exact hin ⟨child, List.mem_singleton_self child, (hbelow.mp hb).resolve_right hnext⟩
    · rw [hbelow, not_or] at hnone
      rw [hout' hnone.2]
      refine hout ?_
      simpa using hnone.1
  left _ hx := absurd hx List.not_mem_nil

/-- Children leave before others are added. -/
theorem of_detachAll (o : s.Owned) (hgone : ∀ c ∈ gone, s.parentOf c = some parent)
    (hnew : ∀ c ∈ new, ¬ s.Below c parent) (h : Exchanged (s.detachAll gone) t parent [] new) :
    Exchanged s t parent gone new where
  size := h.size.trans (size_detachAll s gone)
  trees := h.trees.trans (trees_detachAll s gone)
  vacant x hx := h.vacant x (by rw [get?_detachAll o, hx, Option.map_none])
  statement x n hn := by
    have hbelow : (∃ c ∈ new, (s.detachAll gone).Below c x) ↔ ∃ c ∈ new, s.Below c x := by
      refine exists_congr fun c => and_congr_right fun hc => below_detachAll_iff fun d hd hb => ?_
      exact ((below_iff_of_parentOf (hgone d hd)).mp hb).resolve_right (hnew c hc)
    obtain ⟨root, ht, hin, hout⟩ := h.statement x _ (get?_detachAll_of_get? o gone hn)
    rw [hbelow, rootOf_detachAll] at hin
    rw [hbelow] at hout
    refine ⟨root, ?_, hin, hout⟩
    rw [ht, childrenOnceExchanged_detachAll o hgone]
    simp
  left x hx hnot := by
    obtain ⟨n, hn⟩ := contains_iff.mp (contains_of_parentOf (hgone x hx))
    obtain ⟨root, ht, -⟩ := h.statement x _ (get?_detachAll_of_get? o gone hn)
    refine ⟨contains_iff.mpr ⟨_, ht⟩, ?_⟩
    rw [parentOf_of_get? ht]
    simp [hx, hnot]

end Exchanged
end Store

namespace StoreM

open Store

variable {s : Store} {parent : NodeId} {gone new : List NodeId}

/-! ## The three loops -/

/-- A loop of checks that all hold goes through. -/
theorem forM_query_apply {α : Type} (check : α → Store → Except Failure Unit) (s : Store)
    (items : List α) (h : ∀ a ∈ items, check a s = .ok ()) :
    (items.forM fun a => query (check a)) s = (.ok ⟨⟩, s) := by
  induction items with
  | nil => rfl
  | cons a rest ih =>
    change (query (check a) >>= fun _ => rest.forM fun a => query (check a)) s = _
    rw [bind_apply, query_apply, h a List.mem_cons_self]
    exact ih fun b hb => h b (List.mem_cons_of_mem _ hb)

/-- Removing the children of a statement one after another detaches them. -/
theorem forM_removeChild_apply (o : s.Owned) (hnodup : gone.Nodup)
    (hgone : ∀ c ∈ gone, s.parentOf c = some parent) :
    (gone.forM fun child => do let _ ← removeChild parent child) s =
      (.ok ⟨⟩, s.detachAll gone) := by
  induction gone generalizing s with
  | nil => rfl
  | cons c rest ih =>
    rw [List.nodup_cons] at hnodup
    change ((do let _ ← removeChild parent c) >>= fun _ =>
      rest.forM fun child => do let _ ← removeChild parent child) s = _
    rw [bind_apply, bind_apply, removeChild_apply_detach o.wired (hgone c List.mem_cons_self)]
    refine ih (o.detach c) hnodup.2 fun d hd => ?_
    have hne : d ≠ c := by
      rintro rfl
      exact hnodup.1 hd
    rw [(relinked_detach s c).parentOf_of_ne d hne]
    exact hgone d (List.mem_cons_of_mem _ hd)

/-- Adding statements one after another adds them and takes none away, by induction on them. -/
theorem forM_appendChild_exchanges (o : s.Owned) (h : ∀ c ∈ new, Attachable s parent c) :
    Succeeds (new.forM fun child => appendChild parent child) s fun _ t =>
      Exchanged s t parent [] new := by
  induction new generalizing s with
  | nil => exact Exchanged.nil s parent
  | cons c rest ih =>
    have hc := h c List.mem_cons_self
    change Succeeds (appendChild parent c >>= fun _ => rest.forM (appendChild parent ·)) s _
    refine Yields.bind ((addChild_succeeds o hc none).and (addChild_attaches o hc none)) ?_
    intro _ t ⟨⟨ot, hlink⟩, hattached⟩
    have hrest : ∀ d ∈ rest, Attachable t parent d := fun d hd =>
      (h d (List.mem_cons_of_mem _ hd)).relinked hlink hc.not_below
    refine (ih ot hrest).imp fun _ u hu => ?_
    exact (Exchanged.of_attached o.wired hc.not_below hattached).append hlink hc
      (fun d hd => (hrest d hd).not_below) hu

/-! ## The operation -/

/-- When every new child may be added, those of the key are given back, and the others are
added. -/
theorem replaceChildrenWithKey_exchanges (o : s.Owned) (key : Key)
    (h : s.contains parent = true ∧ ∀ c ∈ new, Attachable s parent c) :
    Succeeds (replaceChildrenWithKey parent key new) s fun removed t =>
      removed = s.childrenWithKey parent key ∧
        Exchanged s t parent (s.childrenWithKey parent key) new := by
  obtain ⟨p, hp⟩ := contains_iff.mp h.1
  have hleaving : Leaving parent new (s.childrenWithKey parent key) s := .start o h.2
  have hleave := forM_removeChild_apply o hleaving.nodup hleaving.parentOf
  have hleft := hleaving.all.result hleave
  have hchecks := forM_query_apply (fun c s => s.checkAttach parent c) s new
    fun c hc => (attachable_iff o.wired).mpr (h.2 c hc)
  rw [replaceChildrenWithKey]
  refine Yields.bind_of_eq hchecks (Yields.bind_of_eq (childrenWithKey_apply hp key) ?_)
  refine Yields.bind_of_eq hleave ?_
  refine Yields.bind (forM_appendChild_exchanges hleft.owned hleft.attachable) fun _ t ht => ?_
  exact Yields.pure ⟨rfl, ht.of_detachAll o hleaving.parentOf fun c hc => (h.2 c hc).not_below⟩

/-- When the children of a key are replaced, which children are given back, and which store
comes of it. -/
theorem replaceChildrenWithKey_ok_exactly (o : s.Owned) (parent : NodeId) (key : Key)
    (new : List NodeId) :
    ((∃ removed t, replaceChildrenWithKey parent key new s = (.ok removed, t)) ↔
        s.contains parent = true ∧ ∀ c ∈ new, Attachable s parent c) ∧
      ∀ removed t, replaceChildrenWithKey parent key new s = (.ok removed, t) ↔
        (s.contains parent = true ∧ ∀ c ∈ new, Attachable s parent c) ∧
          removed = s.childrenWithKey parent key ∧
          Exchanged s t parent (s.childrenWithKey parent key) new := by
  refine Succeeds.exactly (fun removed t hrun => ?_) (replaceChildrenWithKey_exchanges o key) ?_
  · obtain ⟨-, hparent, hnew⟩ := (replaceChildrenWithKey_outcome o parent key new).result hrun
    exact ⟨hparent, fun c hc => (hnew c hc).1⟩
  · rintro _ t _ u ⟨rfl, ht⟩ ⟨rfl, hu⟩
    exact ⟨rfl, ht.unique hu⟩

/-- Two siblings of one key take the place of each other, and the one that is given twice is
added last. -/
theorem replaceChildrenWithKey_ok_exactly_siblings :
    Store.siblings.Owned ∧
      Exchanged Store.siblings
        (replaceChildrenWithKey ⟨0⟩ (Key.core "leaf") [⟨2⟩, ⟨1⟩, ⟨2⟩] Store.siblings).2
        ⟨0⟩ [⟨1⟩, ⟨2⟩] [⟨2⟩, ⟨1⟩, ⟨2⟩] ∧
      Store.siblings.childrenOnceExchanged ⟨0⟩ [⟨1⟩, ⟨2⟩] [⟨2⟩, ⟨1⟩, ⟨2⟩] ⟨0⟩ = [⟨1⟩, ⟨2⟩] := by
  have hkey : Store.siblings.childrenWithKey ⟨0⟩ (Key.core "leaf") = [⟨1⟩, ⟨2⟩] := by decide +kernel
  obtain ⟨-, -, hexchanged⟩ := ((replaceChildrenWithKey_ok_exactly Store.siblings_owned ⟨0⟩
    (Key.core "leaf") [⟨2⟩, ⟨1⟩, ⟨2⟩]).2 [⟨1⟩, ⟨2⟩]
    (replaceChildrenWithKey ⟨0⟩ (Key.core "leaf") [⟨2⟩, ⟨1⟩, ⟨2⟩] Store.siblings).2).mp
      (Prod.ext (by decide +kernel) rfl)
  rw [hkey] at hexchanged
  exact ⟨Store.siblings_owned, hexchanged, by decide +kernel⟩

end StoreM
end StatementForest
