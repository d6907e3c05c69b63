import Mathlib.Data.Set.Function
import StatementForest.Proofs.Store.AtomicMutations

/-!
# What copying a subtree does

The copy of a statement takes the next slot, and then come the copies of its children with all
that stands below them.  So the copies are numbered in the order in which a walk downwards meets
the originals.  Until the whole copy is linked to its parent, nothing is written that was there
before.  This is why the parent may stand in the subtree that is copied: the copy shows this
subtree as it was.

Main results:

- Theorem `Store.numberIn_child`: the numbers of a subtree are counted on from those of the
  siblings before it.
- Theorem `StoreM.copyWithin_copies`: the copies of all statements of a subtree, by induction on
  its height.
- Theorem `StoreM.cloneSubtree_copies`: a live subtree is copied below every live statement, and
  the copy is isomorphic to the original.
-/

namespace StatementForest

/-- The copy of a statement among the copies of the statements around it. -/
def Node.copyAlong (n : Node) (copy : NodeId → NodeId) (root : RootId) : Node :=
  { n with
    parent := n.parent.map copy
    root
    children := n.children.map copy
    findings := [] }

namespace Store

variable {s t u v : Store} {source parent newParent c x y : NodeId} {root : RootId} {n : Node}
  {copy copy' : NodeId → NodeId} {first height : Nat}

/-! ## Numbers for copies -/

/-- The number of a member of a list, counted from `first` on. -/
def numberIn (first : Nat) (ids : List NodeId) (x : NodeId) : NodeId := ⟨first + ids.idxOf x⟩

theorem numberIn_head (first : Nat) (x : NodeId) (ids : List NodeId) :
    numberIn first (x :: ids) x = ⟨first⟩ := by
  rw [numberIn, List.idxOf_cons_self, Nat.add_zero]

/-- Different members have different numbers. -/
theorem injOn_numberIn (first : Nat) (ids : List NodeId) :
    Set.InjOn (numberIn first ids) {x | x ∈ ids} := by
  intro x hx y _ h
  have hidx : first + ids.idxOf x = first + ids.idxOf y := congrArg NodeId.index h
  exact (List.idxOf_inj hx).mp (Nat.add_left_cancel hidx)

/-- All numbers up to the last one are taken. -/
theorem exists_numberIn {ids : List NodeId} (hnodup : ids.Nodup) (hle : first ≤ y.index)
    (hlt : y.index < first + ids.length) : ∃ x ∈ ids, y = numberIn first ids x := by
  have hplace : y.index - first < ids.length := by omega
  refine ⟨ids[y.index - first], List.getElem_mem hplace, ?_⟩
  rw [numberIn, hnodup.idxOf_getElem _ hplace, Nat.add_sub_cancel' hle]

/-- The numbers of a subtree are counted on from those of the siblings before it. -/
theorem numberIn_child {sub : NodeId → List NodeId} {done rest : List NodeId}
    (hnodup : (source :: (done ++ c :: rest).flatMap sub).Nodup) (hx : x ∈ sub c) :
    numberIn first (source :: (done ++ c :: rest).flatMap sub) x =
      numberIn (first + 1 + (done.flatMap sub).length) (sub c) x := by
  rw [List.flatMap_append, List.flatMap_cons, List.nodup_cons, List.nodup_append'] at hnodup
  obtain ⟨hsource, -, -, hdisjoint⟩ := hnodup
  have hne : source ≠ x := by
    rintro rfl
    exact hsource (by simp [hx])
  have hdone : x ∉ done.flatMap sub := fun h =>
    hdisjoint h (List.mem_append_left _ hx)
  rw [numberIn, numberIn, List.flatMap_append, List.flatMap_cons, List.idxOf_cons_ne _ hne,
    List.idxOf_append_of_notMem hdone, List.idxOf_append_of_mem hx]
  congr 1
  omega

section Walk

variable (w : s.Wired) {d : Nat} (hsource : s.contains source = true) (hd : s.Depth source d)
  (hh : s.slots.size ≤ height + 1 + d)

include w hsource hd hh

/-- Only the first statement of a walk downwards has the first number. -/
theorem eq_of_numberIn_eq_first (first : Nat) (hx : s.Below source x)
    (h : numberIn first (s.subtreeWithin (height + 1) source) x = ⟨first⟩) : x = source := by
  have hmem : ∀ y, y ∈ s.subtreeWithin (height + 1) source ↔ s.Below source y := fun y =>
    w.mem_subtreeWithin hsource hd hh
  refine injOn_numberIn first _ ((hmem x).mpr hx) ((hmem source).mpr .self) ?_
  rw [h]
  exact (numberIn_head ..).symm

/-- The walk through the subtree of a child is a part of the walk through the whole one. -/
theorem numberIn_below_child (hn : s.get? source = some n) (first : Nat) {done rest : List NodeId}
    (hsplit : n.children = done ++ c :: rest) (hx : s.Below c x) :
    numberIn (first + 1 + (done.flatMap (s.subtreeWithin height)).length)
        (s.subtreeWithin height c) x =
      numberIn first (s.subtreeWithin (height + 1) source) x := by
  have hnodup := w.nodup_subtreeWithin hsource hd hh
  have hchildren : s.childrenOf source = done ++ c :: rest := by
    rw [childrenOf_of_get? hn, hsplit]
  have hc : c ∈ s.childrenOf source := by simp [hchildren]
  have hbound : s.slots.size ≤ height + (d + 1) := by omega
  rw [← w.mem_subtreeWithin (w.contains_child hc) (w.depth_child hd hc) hbound] at hx
  rw [subtreeWithin, hchildren] at hnodup ⊢
  exact (numberIn_child hnodup hx).symm

end Walk

/-! ## Copies of a subtree -/

/-- The second store holds a copy of each statement below `source`.  They stand in one tree and
are linked among each other like the originals.  The copy of `source` names `parent`. -/
structure Copies (s t : Store) (source parent : NodeId) (root : RootId)
    (copy : NodeId → NodeId) : Prop where
  top : ∀ n, s.get? source = some n →
    t.get? (copy source) = some { n.copyAlong copy root with parent := some parent }
  below : ∀ x n, s.get? x = some n → s.Below source x → x ≠ source →
    t.get? (copy x) = some (n.copyAlong copy root)

/-- A copy is determined by the numbers of the statements next to the original. -/
theorem copyAlong_congr (hparent : ∀ p, n.parent = some p → copy p = copy' p)
    (hchildren : ∀ c ∈ n.children, copy c = copy' c) :
    n.copyAlong copy root = n.copyAlong copy' root := by
  have hmap : n.parent.map copy = n.parent.map copy' := by
    rcases hp : n.parent with _ | p
    · rfl
    · rw [Option.map_some, Option.map_some, hparent p hp]
  rw [Node.copyAlong, Node.copyAlong, hmap, List.map_congr_left hchildren]

/-- Copies below the copy of a parent belong to the copies below this parent. -/
theorem Copies.join (w : s.Wired) (h : Copies s t c (copy source) root copy')
    (hc : s.parentOf c = some source) (hcopy : ∀ x, s.Below c x → copy' x = copy x)
    (hn : s.get? x = some n) (hx : s.Below c x) :
    t.get? (copy x) = some (n.copyAlong copy root) := by
  have hchildren : ∀ d ∈ n.children, copy' d = copy d := by
    intro d hd
    rw [← childrenOf_of_get? hn] at hd
    exact hcopy d (hx.trans (below_of_parentOf (w.parentOf_of_mem hd)))
  rw [← hcopy x hx]
  by_cases heq : x = c
  · subst heq
    have hparent : n.parent = some source := by rw [← parentOf_of_get? hn, hc]
    rw [h.top n hn]
    simp only [Node.copyAlong, hparent, Option.map_some, List.map_congr_left hchildren]
  · rw [h.below x n hn hx heq, copyAlong_congr (fun p hp => hcopy p ?_) hchildren]
    rw [← parentOf_of_get? hn] at hp
    exact ((below_iff_of_parentOf hp).mp hx).resolve_left (Ne.symm heq)

/-- While the children of a statement are copied: those in `done` are, with all that stands below
them, and the copy of the statement lists their copies. -/
structure Copying (s t : Store) (n : Node) (parent : NodeId) (root : RootId)
    (copy : NodeId → NodeId) (height : Nat) (done : List NodeId) (u : Store) : Prop where
  grown : Grown t u
  size : u.slots.size =
    t.slots.size + 1 + (done.flatMap (s.subtreeWithin height)).length
  top : u.get? t.fresh = some
    { n.copyAlong copy root with parent := some parent, children := done.map copy }
  below : ∀ c ∈ done, ∀ x m, s.get? x = some m → s.Below c x →
    u.get? (copy x) = some (m.copyAlong copy root)

namespace Copying

/-- The copy of a statement is alone at first. -/
theorem alloc (s t : Store) (n : Node) (parent : NodeId) (root : RootId)
    (copy : NodeId → NodeId) (height : Nat) :
    Copying s t n parent root copy height [] (t.alloc (n.copyBelow parent root)).2 where
  grown := grown_alloc t _
  size := by simp [Store.alloc]
  top := get?_alloc_fresh t _
  below _ hc := absurd hc List.not_mem_nil

/-- One more child has been copied, and is listed. -/
theorem step {done rest : List NodeId} (w : s.Wired)
    (h : Copying s t n parent root copy height done u) (hn : s.get? source = some n)
    (hsplit : n.children = done ++ c :: rest) (hgrown : Grown u v)
    (hsize : v.slots.size = u.slots.size + (s.subtreeWithin height c).length)
    (hcopies : Copies s v c (copy source) root copy')
    (hcopy : ∀ x, s.Below c x → copy' x = copy x) (hself : copy source = t.fresh)
    (hother : ∀ x, s.Below source x → copy x = t.fresh → x = source) :
    Copying s t n parent root copy height (done ++ [c])
      (v.update t.fresh (·.pushChild (copy c))) where
  grown := grown_update t (Nat.le_refl _) (h.grown.trans hgrown) _
  size := by
    rw [size_slots_update, hsize, h.size]
    simp only [List.flatMap_append, List.flatMap_singleton, List.length_append]
    omega
  top := by
    rw [get?_update_self, hgrown.get?_of_some h.top, Option.map_some, List.map_append]
    rfl
  below := by
    have hparent : ∀ d ∈ done ++ [c], s.parentOf d = some source := by
      intro d hd
      refine w.parentOf_of_mem ?_
      rw [childrenOf_of_get? hn, hsplit]
      simp only [List.mem_append, List.mem_cons, List.not_mem_nil, or_false] at hd ⊢
      exact hd.imp_right .inl
    intro d hd x m hm hx
    have hstrict : x ≠ source := by
      rintro rfl
      exact (w.grounded x).not_below_parent (hparent d hd) hx
    rw [get?_update_of_ne]
    · rcases List.mem_append.mp hd with hdone | hlast
      · exact hgrown.get?_of_some (h.below d hdone x m hm hx)
      · rw [List.mem_singleton.mp hlast] at hx
        exact hcopies.join w (hparent c (by simp)) hcopy hm hx
    · intro heq
      exact hstrict (hother x ((below_of_parentOf (hparent d hd)).trans hx) heq)

/-- When all children have been copied, the whole subtree has. -/
theorem copies (w : s.Wired) (h : Copying s t n parent root copy height n.children u)
    (hn : s.get? source = some n) (hself : copy source = t.fresh) :
    Copies s u source parent root copy where
  top m hm := by
    rw [hn] at hm
    cases hm
    rw [hself, h.top]
    rfl
  below x m hm hx hne := by
    obtain ⟨c, hc, hcx⟩ := w.exists_child_above hx (Ne.symm hne)
    rw [childrenOf_of_get? hn] at hc
    exact h.below c hc x m hm hcx

end Copying

/-! ## What a copy is -/

/-- The second store is the first one with a copy of the subtree of `source` as the last child of
`newParent`.  The copy is isomorphic to the original as it was, and stands in new slots.  Nothing
else is new, and of what was there only the children of `newParent` change. -/
structure Cloned (s t : Store) (source newParent : NodeId) (copy : NodeId → NodeId) :
    Prop where
  trees : t.trees = s.trees
  bijOn : Set.BijOn copy {x | s.Below source x} {y | t.Below (copy source) y}
  fresh : ∀ x, s.Below source x → s.slots.size ≤ (copy x).index
  copied : ∀ x n, s.get? x = some n → s.Below source x →
    ∃ root, s.rootOf newParent = some root ∧ t.get? (copy x) = some
      { n with
        parent := if x = source then some newParent else n.parent.map copy
        root
        children := n.children.map copy
        findings := [] }
  stayed : ∀ x n, s.get? x = some n → t.get? x = some
    { n with
      children := if x = newParent then n.children ++ [copy source] else n.children }
  only : ∀ y, t.contains y = true →
    s.contains y = true ∨ ∃ x, s.Below source x ∧ y = copy x

/-- Copies that are linked like their originals, and to nothing else, are a subtree of the same
shape. -/
theorem bijOn_of_links (w : s.Wired) (hinj : Set.InjOn copy {x | s.Below source x})
    (hnew : s.contains (copy source) = false)
    (hlink : ∀ x p, s.Below source x → x ≠ source → s.parentOf x = some p →
      t.parentOf (copy x) = some (copy p))
    (hold : ∀ x, s.contains x = true → t.parentOf x = s.parentOf x)
    (honly : ∀ y, t.contains y = true →
      s.contains y = true ∨ ∃ x, s.Below source x ∧ y = copy x) :
    Set.BijOn copy {x | s.Below source x} {y | t.Below (copy source) y} := by
  refine ⟨?_, hinj, ?_⟩
  · intro x hx
    induction hx with
    | self => exact .self
    | @under x p hp hap ih =>
      have hne : x ≠ source := by
        rintro rfl
        exact (w.grounded _).not_below_parent hp hap
      exact .under (hlink x p (.under hp hap) hne hp) ih
  · intro y hy
    -- the chain from `y` upwards does not pass what was there before
    have hvacant : ¬ s.contains y = true := by
      induction hy with
      | self => simp [hnew]
      | @under y p hp hap ih =>
        intro hy
        rw [hold y hy] at hp
        exact ih (w.contains_parent hp)
    cases hy with
    | self => exact ⟨source, .self, rfl⟩
    | under hp hap =>
      obtain ⟨x, hx, rfl⟩ := (honly y (contains_of_parentOf hp)).resolve_left hvacant
      exact ⟨x, hx, rfl⟩

/-- Whatever is live once copies have been made was live before or is one of them. -/
theorem contains_or_copy (w : s.Wired) (hsource : s.contains source = true) (hgrown : Grown s u)
    (hsize : u.slots.size = s.slots.size + (s.subtree source).length)
    (hy : u.contains y = true) : s.contains y = true ∨
      ∃ x, s.Below source x ∧ y = numberIn s.slots.size (s.subtree source) x := by
  by_cases hlt : y.index < s.slots.size
  · rw [contains, hgrown.get?_eq y hlt] at hy
    exact .inl hy
  · have hbound := lt_size_of_contains hy
    rw [hsize] at hbound
    obtain ⟨x, hx, heq⟩ := exists_numberIn (w.nodup_subtree hsource) (Nat.le_of_not_lt hlt) hbound
    exact .inr ⟨x, (w.mem_subtree hsource).mp hx, heq⟩

/-- The copies have to be made first, and the new parent has to list the first one of them. -/
theorem Cloned.of_copies (w : s.Wired) (hsource : s.contains source = true)
    (hroot : s.rootOf newParent = some root) (hgrown : Grown s u)
    (hsize : u.slots.size = s.slots.size + (s.subtree source).length)
    (h : Copies s u source newParent root (numberIn s.slots.size (s.subtree source))) :
    Cloned s (u.update newParent
        (·.pushChild (numberIn s.slots.size (s.subtree source) source)))
      source newParent (numberIn s.slots.size (s.subtree source)) := by
  have hmem : ∀ x, x ∈ s.subtree source ↔ s.Below source x := fun x => w.mem_subtree hsource
  have hinj := injOn_numberIn s.slots.size (s.subtree source)
  have hle : ∀ x, s.slots.size ≤ (numberIn s.slots.size (s.subtree source) x).index := fun x =>
    Nat.le_add_right _ _
  have honly := fun y => contains_or_copy (y := y) w hsource hgrown hsize
  simp only [hmem] at hinj
  generalize numberIn s.slots.size (s.subtree source) = copy at *
  have hvacant : ∀ x, s.contains (copy x) = false := by
    intro x
    rw [Bool.eq_false_iff]
    exact fun hlive => Nat.not_lt.mpr (hle x) (lt_size_of_contains hlive)
  have hcopied : ∀ x n, s.get? x = some n → s.Below source x →
      (u.update newParent (·.pushChild (copy source))).get? (copy x) = some
        { n.copyAlong copy root with
          parent := if x = source then some newParent else n.parent.map copy } := by
    intro x n hn hx
    have hne : copy x ≠ newParent := by
      rintro rfl
      have hlive := contains_of_rootOf hroot
      rw [hvacant x] at hlive
      cases hlive
    rw [get?_update_of_ne _ _ hne]
    by_cases heq : x = source
    · subst heq
      rw [h.top n hn, if_pos rfl]
    · rw [h.below x n hn hx heq, if_neg heq]
      rfl
  constructor
  case trees => exact hgrown.trees
  case bijOn =>
    refine bijOn_of_links w hinj (hvacant source) ?_ ?_ ?_
    · intro x p hx hne hp
      obtain ⟨n, hn⟩ := contains_iff.mp (contains_of_parentOf hp)
      rw [parentOf_of_get? hn] at hp
      rw [parentOf_of_get? (hcopied x n hn hx), if_neg hne, hp, Option.map_some]
    · intro x hx
      rw [parentOf_update (by intro n; rfl), parentOf, parentOf,
        hgrown.get?_eq x (lt_size_of_contains hx)]
    · intro y hy
      rw [contains_update] at hy
      exact honly y hy
  case fresh => exact fun x _ => hle x
  case copied => exact fun x n hn hx => ⟨root, hroot, hcopied x n hn hx⟩
  case stayed =>
    intro x n hn
    rw [get?_update, hgrown.get?_of_some hn]
    by_cases heq : x = newParent <;> simp [heq, Node.pushChild]
  case only =>
    intro y hy
    rw [contains_update] at hy
    exact honly y hy

end Store

namespace StoreM

open Store

variable {s t : Store} {source newParent : NodeId}

/-- A subtree is copied in the order of a walk downwards, and nothing is written that was there
before. -/
theorem copyWithin_copies (parent : NodeId) (root : RootId) (w : s.Wired) {height d : Nat}
    (hsource : s.contains source = true) (hd : s.Depth source d)
    (hh : s.slots.size ≤ height + d) (hst : Grown s t) :
    Succeeds (copyWithin height source parent root) t fun id u => Grown t u ∧
      u.slots.size = t.slots.size + (s.subtreeWithin height source).length ∧
      id = numberIn t.slots.size (s.subtreeWithin height source) source ∧
      Copies s u source parent root
        (numberIn t.slots.size (s.subtreeWithin height source)) := by
  induction height generalizing source d t parent with
  | zero =>
    have hlt := w.depth_lt_size hd hsource
    omega
  | succ height ih =>
    obtain ⟨n, hn⟩ := contains_iff.mp hsource
    have hself : numberIn t.slots.size (s.subtreeWithin (height + 1) source) source = t.fresh :=
      numberIn_head ..
    have hother : ∀ x, s.Below source x →
        numberIn t.slots.size (s.subtreeWithin (height + 1) source) x = t.fresh → x = source :=
      fun x => eq_of_numberIn_eq_first w hsource hd hh t.slots.size
    have hchild : ∀ c done rest, n.children = done ++ c :: rest → ∀ x, s.Below c x →
        numberIn (t.slots.size + 1 + (done.flatMap (s.subtreeWithin height)).length)
            (s.subtreeWithin height c) x =
          numberIn t.slots.size (s.subtreeWithin (height + 1) source) x :=
      fun c done rest hsplit x => numberIn_below_child w hsource hd hh hn t.slots.size hsplit
    have hlength : (s.subtreeWithin (height + 1) source).length =
        1 + (n.children.flatMap (s.subtreeWithin height)).length := by
      rw [subtreeWithin, childrenOf_of_get? hn, List.length_cons, Nat.add_comm]
    generalize numberIn t.slots.size (s.subtreeWithin (height + 1) source) = copy at *
    refine Yields.bind_of_eq (node_apply (hst.get?_of_some hn)) ?_
    apply Yields.bind_of_eq (modifyGet_apply _ t)
    refine Yields.bind (Yields.forM (I := fun rest u => ∃ done, n.children = done ++ rest ∧
      Copying s t n parent root copy height done u) ⟨[], rfl, .alloc ..⟩ ?_) ?_
    · rintro c rest u ⟨done, hsplit, hu⟩
      have hc : c ∈ s.childrenOf source := by
        rw [childrenOf_of_get? hn, hsplit]
        simp
      have hcopy : ∀ x, s.Below c x →
          numberIn u.slots.size (s.subtreeWithin height c) x = copy x := by
        rw [hu.size]
        exact hchild c done rest hsplit
      refine Yields.bind (ih t.fresh (w.contains_child hc) (w.depth_child hd hc) (by omega)
        (hst.trans hu.grown)) ?_
      rintro _ v ⟨hv, hsize, rfl, hcopies⟩
      change Copies s v c t.fresh root _ at hcopies
      rw [← hself] at hcopies
      refine Yields.of_eq (update_apply (hv.get?_of_some hu.top) _) ⟨done ++ [c], ?_, ?_⟩
      · rw [hsplit, List.append_assoc, List.singleton_append]
      · rw [hcopy c .self]
        exact hu.step w hn hsplit hv hsize hcopies hcopy hself hother
    · rintro _ u ⟨done, hsplit, hu⟩
      rw [List.append_nil] at hsplit
      rw [← hsplit] at hu
      refine Yields.pure ⟨hu.grown, ?_, hself.symm, hu.copies w hn hself⟩
      rw [hu.size, hlength, Nat.add_assoc]

/-- A live subtree can be copied below every live statement, also below one of its own.  The copy
is isomorphic to what the subtree was. -/
theorem cloneSubtree_copies (o : s.Owned) (hsource : s.contains source = true)
    (hparent : s.contains newParent = true) :
    ∃ copy t, cloneSubtree source newParent s = (.ok (copy source), t) ∧
      Cloned s t source newParent copy := by
  have w := o.wired
  obtain ⟨p, hp⟩ := contains_iff.mp hparent
  obtain ⟨d, hd⟩ := (w.grounded source).exists_depth
  have hbound : s.slots.size ≤ s.slots.size + 1 + d := by omega
  obtain ⟨_, u, hrun, hu, hsize, rfl, hcopies⟩ :=
    (copyWithin_copies newParent p.root w hsource hd hbound (Grown.refl s)).exists_result
  refine ⟨_, _, ?_, .of_copies w hsource (rootOf_of_get? hp) hu hsize hcopies⟩
  rw [cloneSubtree, bind_apply, node_apply hp]
  dsimp only
  rw [bind_apply, get_apply]
  dsimp only
  rw [bind_apply, hrun]
  dsimp only
  rw [bind_apply, update_apply (hu.get?_of_some hp)]
  rfl

/-- A module is copied below its own leaf. -/
theorem cloneSubtree_copies_sample :
    Store.sample.Owned ∧ Store.sample.contains ⟨0⟩ = true ∧ Store.sample.contains ⟨1⟩ = true ∧
      (∃ copy, copy ⟨0⟩ = ⟨3⟩ ∧
        Cloned Store.sample (cloneSubtree ⟨0⟩ ⟨1⟩ Store.sample).2 ⟨0⟩ ⟨1⟩ copy) ∧
      (cloneSubtree ⟨0⟩ ⟨1⟩ Store.sample).2.childrenOf ⟨1⟩ = [⟨3⟩] ∧
      (cloneSubtree ⟨0⟩ ⟨1⟩ Store.sample).2.childrenOf ⟨3⟩ = [⟨4⟩] ∧
      (cloneSubtree ⟨0⟩ ⟨1⟩ Store.sample).2.childrenOf ⟨4⟩ = [] := by
  have hsource : Store.sample.contains ⟨0⟩ = true := by decide +kernel
  have hparent : Store.sample.contains ⟨1⟩ = true := by decide +kernel
  obtain ⟨copy, t, hrun, hcloned⟩ := cloneSubtree_copies Store.sample_owned hsource hparent
  have hfirst : (cloneSubtree ⟨0⟩ ⟨1⟩ Store.sample).1 = .ok ⟨3⟩ := by decide +kernel
  have hcopy : copy ⟨0⟩ = ⟨3⟩ := by
    rw [hrun] at hfirst
    exact Except.ok.inj hfirst
  have ht : (cloneSubtree ⟨0⟩ ⟨1⟩ Store.sample).2 = t := by rw [hrun]
  refine ⟨Store.sample_owned, hsource, hparent, ⟨copy, hcopy, ht ▸ hcloned⟩, ?_⟩
  exact ⟨by decide +kernel, by decide +kernel, by decide +kernel⟩

end StoreM
end StatementForest
