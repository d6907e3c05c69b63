import StatementForest.Proofs.Store.Outcome
import StatementForest.Proofs.Store.Ownership
import StatementForest.Store.Attributes
import Mathlib.Data.List.Forall2
import Mathlib.Data.List.Perm.Subperm

/-!
# Walks end

The walks through a store are bounded by the number of slots.  In a store whose
children and parents agree this bound is never met: a walk upwards finds exactly
the statements above, a walk downwards exactly those below, each once.

Main results:

- Theorem `Store.Wired.isAncestorOrSelf_iff`: the test for ancestors is exact.
- Theorem `Store.Wired.descendants_eq`: the list of all statements of a subtree
  is found, with `Store.Wired.mem_subtree` and `Store.Wired.nodup_subtree`.
- Theorem `StoreM.updateBelow_spec`: a change of a subtree changes its
  statements and no others.
- Theorem `StoreM.inherit_succeeds`: values are handed down to all of them.
-/

namespace StatementForest
namespace Store

variable {s : Store} {id x : NodeId}

/-! ## The bound -/

/-- There are no more live statements than slots. -/
theorem length_le_size {ids : List NodeId} (hnodup : ids.Nodup)
    (hlive : ∀ x ∈ ids, s.contains x = true) : ids.length ≤ s.slots.size := by
  have hmap : (ids.map NodeId.index).Nodup := by
    apply hnodup.map
    intro a b hab
    cases a
    cases b
    exact congrArg NodeId.mk hab
  have hsub : ids.map NodeId.index ⊆ List.range s.slots.size := by
    intro i hi
    obtain ⟨x, hx, rfl⟩ := List.mem_map.mp hi
    exact List.mem_range.mpr (lt_size_of_contains (hlive x hx))
  have hle := (List.subperm_of_subset hmap hsub).length_le
  rwa [List.length_map, List.length_range] at hle

namespace Wired

variable (w : s.Wired)

include w

/-- The depth of a live statement is less than the number of slots. -/
theorem depth_lt_size {d : Nat} (hd : s.Depth x d) (hx : s.contains x = true) :
    d < s.slots.size := by
  obtain ⟨chain, hlen, hnodup, hbelow⟩ := hd.exists_chain (w.grounded x)
  have hle := length_le_size hnodup fun y hy => w.contains_of_below hx (hbelow y hy)
  omega

/-- Walking up from a statement finds those above it. -/
theorem isAncestorOrSelf_iff {a : NodeId} (hx : s.contains x = true) :
    s.isAncestorOrSelf a x = true ↔ s.Below a x := by
  obtain ⟨d, hd⟩ := (w.grounded x).exists_depth
  have hlt := w.depth_lt_size hd hx
  rw [isAncestorOrSelf, List.contains_iff_mem, ancestors]
  exact mem_chainWithin hd (Nat.le_of_lt hlt)

end Wired

/-! ## Downwards -/

/-- The statements on at most `height` levels of a subtree, parents first. -/
def subtreeWithin (s : Store) : (height : Nat) → NodeId → List NodeId
  | 0, _ => []
  | height + 1, id => id :: (s.childrenOf id).flatMap (s.subtreeWithin height)

/-- The statements of a subtree, parents first. -/
def subtree (s : Store) (id : NodeId) : List NodeId := s.subtreeWithin (s.slots.size + 1) id

/-- A row of steps that succeed one by one has the list of their results. -/
theorem mapM_eq_ok_of_forall₂ {α β ε : Type} {f : α → Except ε β} {items : List α}
    {results : List β} (h : List.Forall₂ (fun a b => f a = .ok b) items results) :
    items.mapM f = .ok results := by
  induction h with
  | nil => rfl
  | cons hb _ ih =>
    rw [List.mapM_cons, hb, ih]
    rfl

/-- A row of steps whose results are known has the list of these. -/
theorem mapM_eq_ok_map {α β ε : Type} {f : α → Except ε β} {g : α → β} {items : List α}
    (h : ∀ a ∈ items, f a = .ok (g a)) : items.mapM f = .ok (items.map g) :=
  mapM_eq_ok_of_forall₂ (List.forall₂_map_right_iff.mpr (List.forall₂_same.mpr h))

namespace Wired

variable (w : s.Wired) {height d : Nat}

include w

/-- A child is one level deeper than its parent. -/
theorem depth_child {c : NodeId} (hd : s.Depth id d) (hc : c ∈ s.childrenOf id) :
    s.Depth c (d + 1) := .under (w.parentOf_of_mem hc) hd

/-- Walking down over enough levels lists the statements on these levels. -/
theorem descendantsWithin_eq (hid : s.contains id = true) (hd : s.Depth id d)
    (hh : s.slots.size ≤ height + d) :
    s.descendantsWithin height id = .ok (s.subtreeWithin height id) := by
  induction height generalizing id d with
  | zero =>
    have hlt := w.depth_lt_size hd hid
    omega
  | succ height ih =>
    obtain ⟨n, hn⟩ := contains_iff.mp hid
    have hchildren : n.children.mapM (s.descendantsWithin height) =
        .ok (n.children.map (s.subtreeWithin height)) := by
      refine mapM_eq_ok_map fun c hc => ?_
      rw [← childrenOf_of_get? hn] at hc
      exact ih (w.contains_child hc) (w.depth_child hd hc) (by omega)
    simp only [descendantsWithin, node_of_get? hn, hchildren, bind, Except.bind, pure,
      Except.pure, subtreeWithin, childrenOf_of_get? hn, List.flatMap_def]

/-- What is strictly below a statement is below one of its children. -/
theorem exists_child_above (hx : s.Below id x) (hne : id ≠ x) :
    ∃ c ∈ s.childrenOf id, s.Below c x := by
  induction hx with
  | self => exact absurd rfl hne
  | @under x p hp hap ih =>
    by_cases hpid : id = p
    · subst hpid
      exact ⟨x, w.mem_of_parentOf hp, .self⟩
    · obtain ⟨c, hc, hcp⟩ := ih hpid
      exact ⟨c, hc, .under hp hcp⟩

/-- Enough levels hold all that stands below. -/
theorem mem_subtreeWithin (hid : s.contains id = true) (hd : s.Depth id d)
    (hh : s.slots.size ≤ height + d) : x ∈ s.subtreeWithin height id ↔ s.Below id x := by
  constructor
  · intro hx
    clear hh hd hid
    induction height generalizing id with
    | zero => cases hx
    | succ height ih =>
      rcases List.mem_cons.mp hx with rfl | hx
      · exact .self
      · obtain ⟨c, hc, hx⟩ := List.mem_flatMap.mp hx
        exact (below_of_parentOf (w.parentOf_of_mem hc)).trans (ih hx)
  · intro hx
    induction height generalizing id d with
    | zero =>
      have hlt := w.depth_lt_size hd hid
      omega
    | succ height ih =>
      by_cases heq : id = x
      · exact heq ▸ List.mem_cons_self
      · obtain ⟨c, hc, hcx⟩ := w.exists_child_above hx heq
        refine List.mem_cons_of_mem _ (List.mem_flatMap.mpr ⟨c, hc, ?_⟩)
        exact ih (w.contains_child hc) (w.depth_child hd hc) (by omega) hcx

/-- The subtrees of different children of a statement share nothing. -/
theorem not_below_of_siblings {c c' : NodeId} (hc : c ∈ s.childrenOf id)
    (hc' : c' ∈ s.childrenOf id) (hne : c ≠ c') (hx : s.Below c x) : ¬ s.Below c' x := by
  intro hx'
  have hp := w.parentOf_of_mem hc
  have hp' := w.parentOf_of_mem hc'
  rcases hx.linear hx' with h | h
  · have hid := ((below_iff_of_parentOf hp').mp h).resolve_left hne
    exact (w.grounded id).not_below_parent hp hid
  · have hid := ((below_iff_of_parentOf hp).mp h).resolve_left hne.symm
    exact (w.grounded id).not_below_parent hp' hid

/-- No statement is listed twice on enough levels. -/
theorem nodup_subtreeWithin (hid : s.contains id = true) (hd : s.Depth id d)
    (hh : s.slots.size ≤ height + d) : (s.subtreeWithin height id).Nodup := by
  induction height generalizing id d with
  | zero => exact List.nodup_nil
  | succ height ih =>
    have hmem : ∀ c ∈ s.childrenOf id, ∀ y,
        y ∈ s.subtreeWithin height c ↔ s.Below c y := fun c hc y =>
      w.mem_subtreeWithin (w.contains_child hc) (w.depth_child hd hc) (by omega)
    rw [subtreeWithin, List.nodup_cons, List.nodup_flatMap]
    refine ⟨?_, ?_, ?_⟩
    · intro h
      obtain ⟨c, hc, hidc⟩ := List.mem_flatMap.mp h
      exact (w.grounded id).not_below_parent (w.parentOf_of_mem hc) ((hmem c hc id).mp hidc)
    · intro c hc
      exact ih (w.contains_child hc) (w.depth_child hd hc) (by omega)
    · apply (w.nodup_children id).imp_of_mem
      intro c c' hc hc' hne y hy hy'
      exact w.not_below_of_siblings hc hc' hne ((hmem c hc y).mp hy) ((hmem c' hc' y).mp hy')

/-- The descendants of a live statement are those of its subtree. -/
theorem descendants_eq (hid : s.contains id = true) :
    s.descendants id = .ok (s.subtree id) := by
  obtain ⟨d, hd⟩ := (w.grounded id).exists_depth
  exact w.descendantsWithin_eq hid hd (by omega)

/-- The subtree holds the statements below. -/
theorem mem_subtree (hid : s.contains id = true) : x ∈ s.subtree id ↔ s.Below id x := by
  obtain ⟨d, hd⟩ := (w.grounded id).exists_depth
  exact w.mem_subtreeWithin hid hd (by omega)

/-- The subtree lists no statement twice. -/
theorem nodup_subtree (hid : s.contains id = true) : (s.subtree id).Nodup := by
  obtain ⟨d, hd⟩ := (w.grounded id).exists_depth
  exact w.nodup_subtreeWithin hid hd (by omega)

end Wired

/-- A statement below a live one is live. -/
theorem contains_of_above (hid : s.contains id = true) (h : s.Below id x) :
    s.contains x = true := by
  cases h with
  | self => exact hid
  | under hp _ => exact contains_of_parentOf hp

/-- The walk downwards fails at a number without a statement. -/
theorem descendants_of_not_contains (hid : s.contains id = false) :
    s.descendants id = .error (.nodeNotFound id) := by
  simp only [descendants, descendantsWithin, node_of_not_contains hid, bind, Except.bind]

/-! ## Changes of several statements -/

/-- Change several statements one after another. -/
def updateAll (s : Store) (ids : List NodeId) (f : Node → Node) : Store :=
  ids.foldl (fun s d => s.update d f) s

/-- Changing statements keeps the trees. -/
@[simp]
theorem trees_updateAll (ids : List NodeId) (f : Node → Node) :
    (s.updateAll ids f).trees = s.trees := by
  induction ids generalizing s with
  | nil => rfl
  | cons d rest ih => exact (ih (s := s.update d f)).trans (trees_update s d f)

/-- Changing statements keeps the number of slots. -/
theorem size_updateAll (ids : List NodeId) (f : Node → Node) :
    (s.updateAll ids f).slots.size = s.slots.size := by
  induction ids generalizing s with
  | nil => rfl
  | cons d rest ih => exact (ih (s := s.update d f)).trans (size_slots_update s d f)

/-- Each of some different statements is changed once. -/
theorem get?_updateAll {ids : List NodeId} (hnodup : ids.Nodup) (f : Node → Node)
    (x : NodeId) :
    (s.updateAll ids f).get? x = if x ∈ ids then (s.get? x).map f else s.get? x := by
  induction ids generalizing s with
  | nil => rfl
  | cons d rest ih =>
    rw [List.nodup_cons] at hnodup
    have hstep : s.updateAll (d :: rest) f = (s.update d f).updateAll rest f := rfl
    rw [hstep, ih hnodup.2, get?_update]
    by_cases hxd : x = d
    · subst hxd
      simp [hnodup.1]
    · simp [hxd]

end Store

namespace StoreM

open Store

variable {s : Store} {id : NodeId}

/-- A loop that changes live statements succeeds. -/
theorem forM_update_apply {ids : List NodeId} (hlive : ∀ x ∈ ids, s.contains x = true)
    (f : Node → Node) :
    (ids.forM fun d => StoreM.update d f) s = (.ok ⟨⟩, s.updateAll ids f) := by
  induction ids generalizing s with
  | nil => rfl
  | cons d rest ih =>
    obtain ⟨n, hn⟩ := contains_iff.mp (hlive d List.mem_cons_self)
    change (StoreM.update d f >>= fun _ => rest.forM fun d => StoreM.update d f) s = _
    rw [bind_apply, update_apply hn]
    refine ih fun x hx => ?_
    rw [contains_update]
    exact hlive x (List.mem_cons_of_mem _ hx)

/-- A change of a subtree changes every statement in it, and nothing else. -/
theorem updateBelow_spec (w : s.Wired) (hid : s.contains id = true) (f : Node → Node) :
    ∃ t, updateBelow id f s = (.ok ⟨⟩, t) ∧ t.slots.size = s.slots.size ∧
      t.trees = s.trees ∧ (∀ x, s.Below id x → t.get? x = (s.get? x).map f) ∧
      ∀ x, ¬ s.Below id x → t.get? x = s.get? x := by
  refine ⟨s.updateAll (s.subtree id) f, ?_, size_updateAll _ _, trees_updateAll _ _, ?_, ?_⟩
  · rw [updateBelow, bind_apply, query_apply, w.descendants_eq hid]
    exact forM_update_apply (fun x hx => contains_of_above hid ((w.mem_subtree hid).mp hx)) f
  · intro x hx
    rw [get?_updateAll (w.nodup_subtree hid), if_pos ((w.mem_subtree hid).mpr hx)]
  · intro x hx
    rw [get?_updateAll (w.nodup_subtree hid), if_neg fun h => hx ((w.mem_subtree hid).mp h)]

/-- Changing what stands below a number without a statement fails. -/
theorem updateBelow_of_not_contains (hid : s.contains id = false) (f : Node → Node) :
    updateBelow id f s = (.error (.nodeNotFound id), s) := by
  rw [updateBelow, bind_apply, query_apply, descendants_of_not_contains hid]

/-- A change of a subtree that does not touch links leaves all links as they are. -/
theorem updateBelow_succeeds (w : s.Wired) (hid : s.contains id = true) {f : Node → Node}
    (hf : Node.KeepsLinks f) : Succeeds (updateBelow id f) s fun _ t => Parallel s t := by
  have hpar : ∀ (ids : List NodeId) (u : Store), Parallel s u → Parallel s (u.updateAll ids f) := by
    intro ids
    induction ids with
    | nil => exact fun u hu => hu
    | cons d rest ih => exact fun u hu => ih _ (hu.trans (parallel_update hf d))
  have hrun : updateBelow id f s = (.ok ⟨⟩, s.updateAll (s.subtree id) f) := by
    rw [updateBelow, bind_apply, query_apply, w.descendants_eq hid]
    exact forM_update_apply (fun x hx => contains_of_above hid ((w.mem_subtree hid).mp hx)) f
  exact Yields.of_eq hrun (hpar _ s (Parallel.refl s))

/-! ## Values that are handed down -/

variable {α : Type} {rule : Store → NodeId → α → α} {write : α → Node → Node}

/-- Handing down over enough levels succeeds and keeps all links. -/
theorem inheritWithin_succeeds (w : s.Wired) (hwrite : ∀ a, Node.KeepsLinks (write a))
    {height d : Nat} {t : Store} (ht : Parallel s t) (hid : s.contains id = true)
    (hd : s.Depth id d) (hh : s.slots.size ≤ height + d) (inherited : α) :
    Succeeds (inheritWithin rule write height inherited id) t fun _ u => Parallel s u := by
  induction height generalizing id d t inherited with
  | zero =>
    have hlt := w.depth_lt_size hd hid
    omega
  | succ height ih =>
    rw [← ht.contains] at hid
    obtain ⟨n, hn⟩ := contains_iff.mp hid
    rw [inheritWithin_succ]
    refine Yields.bind_of_eq (node_apply hn) (Yields.bind_get ?_)
    apply Yields.bind_of_eq (update_apply hn _)
    apply Yields.forM_of_invariant (ht.trans (parallel_update (hwrite _) id))
    intro c hc u hu
    rw [← childrenOf_of_get? hn, ht.childrenOf] at hc
    exact ih hu (w.contains_child hc) (w.depth_child hd hc) (by omega) _

/-- Values are handed down to a whole subtree, and no link changes. -/
theorem inherit_succeeds (w : s.Wired) (hwrite : ∀ a, Node.KeepsLinks (write a))
    (hid : s.contains id = true) (inherited : α) :
    Succeeds (inherit rule write inherited id) s fun _ t => Parallel s t := by
  obtain ⟨d, hd⟩ := (w.grounded id).exists_depth
  exact Yields.bind_get
    (inheritWithin_succeeds w hwrite (Parallel.refl s) hid hd (by omega) inherited)

/-- Handing down from a number without a statement fails. -/
theorem inherit_of_not_contains (hid : s.contains id = false) (inherited : α) :
    inherit rule write inherited id s = (.error (.nodeNotFound id), s) := by
  rw [contains, Option.isSome_eq_false_iff, Option.isNone_iff_eq_none] at hid
  rw [inherit, bind_apply, get_apply]
  exact bind_apply_of_error (node_apply_of_none hid)

end StoreM
end StatementForest
