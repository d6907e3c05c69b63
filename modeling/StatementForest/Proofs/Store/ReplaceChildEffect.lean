import StatementForest.Proofs.Store.AddChildEffect

/-!
# What replacing a child does

A child is replaced in two moves.  The old child leaves, and the new one is added at the place
that has become free.  When the new child stood before the old one among the same siblings, it
leaves a place of its own, and the free place moves to the left with those in between.  So the
new child ends up where the old one was among all that stay, wherever it came from.

Main results:

- Theorem `Store.placeChild_gap`: the place that is found is the place of the old child.
- Theorems `Store.Relinked.below_iff_of_not_above`, `Store.Relinked.below_iff_of_detached`: a
  subtree is not touched by what happens to statements outside of it.
- Theorem `StoreM.replaceChild_ok_exactly`: when a child is replaced, and which store comes of
  it.
-/

namespace StatementForest
namespace Store

variable {s t u : Store} {parent old new child x a : NodeId}

/-! ## The free place -/

/-- Insertion behind the first part of a list. -/
theorem insertIdx_append_length {α : Type} (before after : List α) (c : α) :
    (before ++ after).insertIdx before.length c = before ++ c :: after := by
  induction before with
  | nil => rfl
  | cons b rest ih => exact congrArg (b :: ·) ih

/-- The place that is free for `new` once a child has left the place `index`: an earlier sibling
leaves its own place, too. -/
def gap (siblings : List NodeId) (new : NodeId) (index : Nat) : Nat :=
  if (siblings.idxOf? new).any (· < index) then index - 1 else index

/-- The free place is before the place that was left exactly for an earlier sibling. -/
theorem gap_append (before after : List NodeId) (new : NodeId) :
    gap (before ++ after) new before.length =
      if new ∈ before then before.length - 1 else before.length := by
  have hearlier : ((before ++ after).idxOf? new).any (· < before.length) = true ↔
      new ∈ before := by
    by_cases hmem : new ∈ before ++ after
    · rw [idxOf?_of_mem hmem, Option.any_some, decide_eq_true_eq, List.idxOf_append]
      split
      · next hbefore => exact iff_of_true (List.idxOf_lt_length_of_mem hbefore) hbefore
      · next hbefore => exact iff_of_false (by omega) hbefore
    · rw [List.idxOf?_eq_none_iff.mpr hmem]
      exact iff_of_false Bool.false_ne_true fun hbefore => hmem (List.mem_append_left _ hbefore)
  exact if_congr hearlier rfl rfl

/-- An earlier sibling is a child of the same parent, so that this need not be asked. -/
theorem gap_of_get? (w : s.Wired) {p n : Node} (hp : s.get? parent = some p)
    (hn : s.get? new = some n) (index : Nat) :
    (if n.parent = some parent ∧ (p.children.idxOf? new).any (· < index) = true
      then index - 1 else index) = gap p.children new index := by
  refine if_congr (and_iff_right_of_imp fun hearlier => ?_) rfl rfl
  obtain ⟨i, hi, -⟩ := (Option.any_eq_true _ _).mp hearlier
  have hmem : new ∈ s.childrenOf parent := by
    rw [childrenOf_of_get? hp]
    exact List.isSome_idxOf?.mp (by rw [hi]; rfl)
  rw [← parentOf_of_get? hn]
  exact w.parentOf_of_mem hmem

/-- A child that is put at the free place stands where the old one stood among those that
stay. -/
theorem placeChild_gap {siblings : List NodeId} (hold : old ∈ siblings) (hne : old ≠ new) :
    placeChild ((siblings.erase old).erase new) new
        (some (gap (siblings.erase old) new (siblings.idxOf old))) =
      (siblings.erase new).replace old new := by
  obtain ⟨before, after, rfl, hbefore⟩ := List.eq_append_cons_of_mem hold
  have hplace : (before ++ old :: after).idxOf old = before.length := by
    rw [List.idxOf_append_of_notMem hbefore, List.idxOf_cons_self, Nat.add_zero]
  rw [hplace, List.erase_append_right _ hbefore, List.erase_cons_head, gap_append]
  by_cases hnew : new ∈ before
  · -- the gap has moved to the left
    have hlength := List.length_erase_of_mem hnew
    have hrest : old ∉ before.erase new := fun h => hbefore (List.mem_of_mem_erase h)
    rw [if_pos hnew, List.erase_append_left _ hnew, List.erase_append_left _ hnew,
      List.replace_append_right hrest, List.replace_cons_self, placeChild, ← hlength,
      Nat.min_eq_left (by simp), insertIdx_append_length]
  · have htail : (old :: after).erase new = old :: after.erase new :=
      List.erase_cons_tail (by simpa using hne)
    rw [if_neg hnew, List.erase_append_right _ hnew, List.erase_append_right _ hnew, htail,
      List.replace_append_right hbefore, List.replace_cons_self, placeChild,
      Nat.min_eq_left (by simp), insertIdx_append_length]

/-! ## Subtrees that other moves leave alone -/

namespace Relinked

variable {parent? : Option NodeId}

/-- A change of a link can be looked at from its end. -/
theorem symm (h : Relinked s t child parent?) : Relinked t s child (s.parentOf child) where
  size := h.size.symm
  parentOf_self := rfl
  parentOf_of_ne x hx := (h.parentOf_of_ne x hx).symm
  contains x := (h.contains x).symm
  faceOf x := (h.faceOf x).symm
  trees := h.trees.symm

/-- What is below a statement stays there when the statement that moves is not below it. -/
theorem below_of_not_above (h : Relinked s t child parent?) (hnot : ¬ s.Below a child)
    (hx : s.Below a x) : t.Below a x := by
  induction hx with
  | self => exact .self
  | @under x p hp hap ih =>
    have hne : x ≠ child := by
      rintro rfl
      exact hnot (.under hp hap)
    exact .under (by rw [h.parentOf_of_ne x hne]; exact hp) ih

/-- A subtree without the moved statement, before and after, is not touched by the move. -/
theorem below_iff_of_not_above (h : Relinked s t child parent?) (hs : ¬ s.Below a child)
    (ht : ¬ t.Below a child) : t.Below a x ↔ s.Below a x :=
  ⟨h.symm.below_of_not_above ht, h.below_of_not_above hs⟩

/-- A subtree is not touched when a statement leaves that stands outside of it or at its top. -/
theorem below_iff_of_detached (h : Relinked s t child none)
    (honly : s.Below a child → a = child) : t.Below a x ↔ s.Below a x := by
  by_cases hb : s.Below a child
  · rw [honly hb]
    exact h.below_iff
  · refine h.below_iff_of_not_above hb fun ht => ?_
    rw [ht.eq_of_parentOf_eq_none h.parentOf_self] at hb
    exact hb .self

end Relinked

/-- A detached statement is in no list of children. -/
theorem childrenOf_detach (w : s.Wired) (child x : NodeId) :
    (s.detach child).childrenOf x = (s.childrenOf x).erase child := by
  rw [childrenOf, childrenOf, get?_detach w]
  rcases s.get? x with _ | n <;> rfl

/-! ## What a replacement is -/

/-- When one child of a statement may be replaced by another statement. -/
structure Replaceable (s : Store) (parent old new : NodeId) : Prop where
  parent_live : s.contains parent = true
  new_live : s.contains new = true
  mem_children : old ∈ s.childrenOf parent
  not_below : ¬ s.Below new parent
  not_top : s.isTop new = false

/-- The children of a statement after `new` has taken the place of `old` among the children of
`parent`.  An earlier parent loses the new child. -/
def childrenOnceReplaced (s : Store) (parent old new x : NodeId) : List NodeId :=
  if x = parent then ((s.childrenOf parent).erase new).replace old new
  else if s.parentOf new = some x then (s.childrenOf x).erase new
  else s.childrenOf x

/-- The second store is the first one with `new` in the place of `old` below `parent`.  Each
statement changes in the fields that are named here, and in no other one.  The old child keeps
its subtree, unless the new one is taken out of it. -/
structure Replaced (s t : Store) (parent old new : NodeId) : Prop where
  size : t.slots.size = s.slots.size
  trees : t.trees = s.trees
  vacant : ∀ x, s.get? x = none → t.get? x = none
  moved : ∀ x n, s.get? x = some n → s.Below new x → ∃ root, s.rootOf parent = some root ∧
    t.get? x = some { n with root, parent := if x = new then some parent else n.parent }
  stayed : ∀ x n, s.get? x = some n → ¬ s.Below new x → t.get? x = some
    { n with
      parent := if x = old then none else n.parent
      children := s.childrenOnceReplaced parent old new x }
  old_live : t.contains old = true
  old_detached : t.parentOf old = none
  below_old : ∀ x, t.Below old x ↔ s.Below old x ∧ ¬ s.Below new x

/-- A store is known when it is known what was replaced. -/
theorem Replaced.unique (h : Replaced s t parent old new) (h' : Replaced s u parent old new) :
    t = u := by
  refine eq_of_get? (h.size.trans h'.size.symm) (h.trees.trans h'.trees.symm) fun x => ?_
  rcases hn : s.get? x with _ | n
  · rw [h.vacant x hn, h'.vacant x hn]
  by_cases hx : s.Below new x
  · obtain ⟨root, hroot, ht⟩ := h.moved x n hn hx
    obtain ⟨root', hroot', hu⟩ := h'.moved x n hn hx
    rw [hroot] at hroot'
    cases hroot'
    rw [ht, hu]
  · rw [h.stayed x n hn hx, h'.stayed x n hn hx]

namespace Replaceable

variable (h : Replaceable s parent old new)

include h

/-- What may replace a child may be put below its parent. -/
theorem attachable : StoreM.Attachable s parent new :=
  ⟨h.parent_live, h.new_live, h.not_below, h.not_top⟩

/-- The child that is replaced stands below the parent. -/
theorem parentOf_old (w : s.Wired) : s.parentOf old = some parent :=
  w.parentOf_of_mem h.mem_children

/-- The old child does not stand below the new one, since it is not the new one and its parent
does not stand there. -/
theorem not_below_old (w : s.Wired) (hne : old ≠ new) : ¬ s.Below new old := by
  rw [below_iff_of_parentOf (h.parentOf_old w)]
  rintro (rfl | hb)
  · exact hne rfl
  · exact h.not_below hb

/-- What is below the new child is not touched when the old one leaves. -/
theorem below_new_iff (w : s.Wired) (hne : old ≠ new) :
    (s.detach old).Below new x ↔ s.Below new x :=
  (relinked_detach s old).below_iff_of_detached fun hb => absurd hb (h.not_below_old w hne)

/-- The new child may still be attached when the old one has left. -/
theorem attachable_detach (w : s.Wired) : StoreM.Attachable (s.detach old) parent new :=
  h.attachable.relinked (relinked_detach s old)
    ((w.grounded parent).not_below_parent (h.parentOf_old w))

/-- The old child keeps what stands below it, except for the new one with its subtree. -/
theorem below_old_iff (w : s.Wired) (hne : old ≠ new)
    (hlink : Relinked (s.detach old) t new (some parent)) :
    t.Below old x ↔ s.Below old x ∧ ¬ s.Below new x := by
  have hdetach := relinked_detach s old
  have hnew : t.Below new x ↔ s.Below new x := hlink.below_iff.trans (h.below_new_iff w hne)
  have hnotOld : ¬ t.Below old new := by
    -- the chain of the new child leads to the parent, which the old child has left
    rw [below_iff_of_parentOf hlink.parentOf_self]
    rintro (heq | hb)
    · exact hne heq
    · rw [hlink.below_iff_of_not_below (h.attachable_detach w).not_below, hdetach.below_iff] at hb
      exact (w.grounded parent).not_below_parent (h.parentOf_old w) hb
  by_cases hx : s.Below new x
  · refine iff_of_false (fun hb => ?_) fun hb => hb.2 hx
    obtain hb | hb := hb.linear (hnew.mpr hx)
    · exact hnotOld hb
    · rw [hlink.below_iff, h.below_new_iff w hne] at hb
      exact h.not_below_old w hne hb
  · have hmoved : ¬ (s.detach old).Below new x := fun hb => hx ((h.below_new_iff w hne).mp hb)
    rw [hlink.below_iff_of_not_below hmoved, hdetach.below_iff, and_iff_left hx]

/-- The children of all statements after both moves. -/
theorem childrenOnceAttached_eq (w : s.Wired) (hne : old ≠ new) (x : NodeId) :
    (s.detach old).childrenOnceAttached parent new
        (some (gap ((s.childrenOf parent).erase old) new ((s.childrenOf parent).idxOf old))) x =
      s.childrenOnceReplaced parent old new x := by
  have hparentOf : (s.detach old).parentOf new = s.parentOf new :=
    (relinked_detach s old).parentOf_of_ne new hne.symm
  unfold childrenOnceAttached childrenOnceReplaced
  rw [hparentOf, Store.childrenOf_detach w, Store.childrenOf_detach w,
    placeChild_gap h.mem_children hne]
  split
  · rfl
  · next hparent =>
    have herase : (s.childrenOf x).erase old = s.childrenOf x := by
      refine List.erase_of_not_mem fun hmem => hparent ?_
      exact w.eq_of_mem_of_mem hmem h.mem_children
    rw [herase]

end Replaceable

/-- The new child has to be attached at the free place once the old one has left. -/
theorem Replaced.of_attached (w : s.Wired) (hne : old ≠ new) (h : Replaceable s parent old new)
    (hlink : Relinked (s.detach old) t new (some parent))
    (hattached : Attached (s.detach old) t parent new
      (some (gap ((s.childrenOf parent).erase old) new ((s.childrenOf parent).idxOf old)))) :
    Replaced s t parent old new := by
  have hdetach := relinked_detach s old
  have hget : ∀ x n, s.get? x = some n → (s.detach old).get? x = some
      { n with
        parent := if x = old then none else n.parent
        children := n.children.erase old } := fun x n hn => by
    rw [get?_detach w, hn, Option.map_some]
  constructor
  case size => exact hattached.size.trans hdetach.size
  case trees => exact hattached.trees.trans hdetach.trees
  case vacant =>
    intro x hx
    refine hattached.vacant x ?_
    rw [get?_detach w, hx, Option.map_none]
  case moved =>
    intro x n hn hx
    obtain ⟨root, hroot, ht⟩ := hattached.moved x _ (hget x n hn) ((h.below_new_iff w hne).mpr hx)
    rw [rootOf_detach] at hroot
    have hold : x ≠ old := by
      rintro rfl
      exact h.not_below_old w hne hx
    have hchildren : n.children.erase old = n.children := by
      refine List.erase_of_not_mem (w.not_mem_children hn ?_)
      rw [h.parentOf_old w]
      rintro ⟨⟩
      exact h.not_below hx
    refine ⟨root, hroot, ?_⟩
    rw [ht, hchildren, if_neg hold]
  case stayed =>
    intro x n hn hx
    rw [hattached.stayed x _ (hget x n hn) fun hb => hx ((h.below_new_iff w hne).mp hb),
      h.childrenOnceAttached_eq w hne]
  case old_live =>
    rw [hlink.contains, hdetach.contains]
    exact contains_of_parentOf (h.parentOf_old w)
  case old_detached => rw [hlink.parentOf_of_ne old hne, hdetach.parentOf_self]
  case below_old => exact fun x => h.below_old_iff w hne hlink

/-- A module with two leaves below it. -/
def siblings : Store := (StoreM.appendChild ⟨0⟩ ⟨2⟩ sample).2

/-- The sample store satisfies the invariant. -/
theorem siblings_owned : siblings.Owned := Mutation.owned sample_owned (.appendChild ⟨0⟩ ⟨2⟩)

end Store

namespace StoreM

open Store

variable {s : Store} {parent old new : NodeId}

/-- A child that is removed tells its place, and is detached. -/
theorem removeChild_apply_detach (w : s.Wired) (hold : s.parentOf old = some parent) :
    removeChild parent old s = (.ok ((s.childrenOf parent).idxOf old), s.detach old) := by
  rw [removeChild_apply (idxOf?_of_mem (w.mem_of_parentOf hold)) (contains_of_parentOf hold),
    Store.detach, hold]

/-- A child that may be replaced leaves first, and the new one is added at the free place. -/
theorem replaceChild_apply (o : s.Owned) (hne : old ≠ new) (h : Replaceable s parent old new) :
    replaceChild parent old new s = addChild parent new
      (some (gap ((s.childrenOf parent).erase old) new ((s.childrenOf parent).idxOf old)))
      (s.detach old) := by
  have w := o.wired
  have hcheck := (attachable_iff w).mpr h.attachable
  have ha := h.attachable_detach w
  obtain ⟨p, hp⟩ := contains_iff.mp ha.parent_live
  obtain ⟨n, hn⟩ := contains_iff.mp ha.child_live
  have hchildren : p.children = (s.childrenOf parent).erase old := by
    rw [← childrenOf_of_get? hp, Store.childrenOf_detach w]
  rw [replaceChild, if_neg hne, bind_apply, query_apply, hcheck]
  dsimp only
  rw [bind_apply, removeChild_apply_detach w (h.parentOf_old w)]
  dsimp only
  rw [bind_apply, childrenOf_apply hp]
  dsimp only
  rw [bind_apply, node_apply hn]
  dsimp only
  rw [gap_of_get? (o.detach old).wired hp hn, hchildren]

/-- What has been replaced was a child, and the new child was allowed to be one. -/
theorem replaceable_of_replaceChild (o : s.Owned) (hne : old ≠ new) {t : Store}
    (hrun : replaceChild parent old new s = (.ok (), t)) : Replaceable s parent old new := by
  obtain ⟨-, ⟨heq, -⟩ | ⟨hold, h, -⟩⟩ := (replaceChild_outcome o parent old new).result hrun
  · exact absurd heq hne
  · exact ⟨h.parent_live, h.child_live, o.wired.mem_of_parentOf hold, h.not_below, h.not_top⟩

/-- A child that may be replaced is replaced. -/
theorem replaceChild_replaces (o : s.Owned) (hne : old ≠ new)
    (h : Replaceable s parent old new) :
    Succeeds (replaceChild parent old new) s fun _ t => Replaced s t parent old new := by
  have od := o.detach old
  have ha := h.attachable_detach o.wired
  unfold Succeeds Yields
  rw [replaceChild_apply o hne h]
  refine ((addChild_succeeds od ha _).and (addChild_attaches od ha _)).imp ?_
  intro _ t ⟨⟨_, hlink⟩, hattached⟩
  exact .of_attached o.wired hne h hlink hattached

/-- When a child is replaced by another statement, and which store comes of it. -/
theorem replaceChild_ok_exactly (o : s.Owned) (parent : NodeId) (hne : old ≠ new) :
    ((∃ t, replaceChild parent old new s = (.ok (), t)) ↔ Replaceable s parent old new) ∧
      ∀ t, replaceChild parent old new s = (.ok (), t) ↔
        Replaceable s parent old new ∧ Replaced s t parent old new := by
  obtain ⟨hok, hall⟩ := Succeeds.exactly
    (fun _ _ hrun => replaceable_of_replaceChild o hne hrun) (replaceChild_replaces o hne)
    fun _ _ _ _ ht hu => ⟨rfl, ht.unique hu⟩
  refine ⟨?_, fun t => hall () t⟩
  rw [← hok]
  exact ⟨fun ⟨t, hrun⟩ => ⟨(), t, hrun⟩, fun ⟨_, t, hrun⟩ => ⟨t, hrun⟩⟩

/-- The first of two siblings replaces the second one. -/
theorem replaceChild_ok_exactly_siblings :
    Store.siblings.Owned ∧ (⟨2⟩ : NodeId) ≠ ⟨1⟩ ∧ Replaceable Store.siblings ⟨0⟩ ⟨2⟩ ⟨1⟩ ∧
      Replaced Store.siblings (replaceChild ⟨0⟩ ⟨2⟩ ⟨1⟩ Store.siblings).2 ⟨0⟩ ⟨2⟩ ⟨1⟩ ∧
      Store.siblings.childrenOnceReplaced ⟨0⟩ ⟨2⟩ ⟨1⟩ ⟨0⟩ = [⟨1⟩] := by
  have hne : (⟨2⟩ : NodeId) ≠ ⟨1⟩ := by decide
  obtain ⟨hable, hreplaced⟩ := ((replaceChild_ok_exactly Store.siblings_owned ⟨0⟩ hne).2
    (replaceChild ⟨0⟩ ⟨2⟩ ⟨1⟩ Store.siblings).2).mp (Prod.ext (by decide +kernel) rfl)
  exact ⟨Store.siblings_owned, hne, hable, hreplaced, by decide +kernel⟩

end StoreM
end StatementForest
