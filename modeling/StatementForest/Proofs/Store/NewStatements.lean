import StatementForest.Build.Instantiate
import StatementForest.Proofs.Store.ChildReplacement

/-!
# New statements

A new statement takes the next slot, so it is unknown to all others.  While a
subtree is copied its statements name their parent before that lists them:
`OwnedBut loose` is the invariant up to these loose ends.

Main results:

- Theorem `Store.OwnedBut.alloc`, `Store.OwnedBut.tie`: a new statement is one
  loose end more, and listing it is one less.
- Theorem `StoreM.cloneSubtree_outcome`, `StoreM.instantiate_outcome`: copying
  fails without any change, and new statements keep the invariant.
-/

namespace StatementForest
namespace Store

/-! ## More slots -/

/-- The statements of one store keep their numbers and all they hold in another. -/
structure Grown (s t : Store) : Prop where
  size_le : s.slots.size ≤ t.slots.size
  get?_eq : ∀ x : NodeId, x.index < s.slots.size → t.get? x = s.get? x
  trees : t.trees = s.trees

namespace Grown

variable {s t u : Store} {x : NodeId}

theorem refl (s : Store) : Grown s s := ⟨Nat.le_refl _, fun _ _ => rfl, rfl⟩

theorem trans (h : Grown s t) (h' : Grown t u) : Grown s u where
  size_le := Nat.le_trans h.size_le h'.size_le
  get?_eq x hx := by
    rw [h'.get?_eq x (Nat.lt_of_lt_of_le hx h.size_le), h.get?_eq x hx]
  trees := h'.trees.trans h.trees

/-- A statement that was there is found as it was. -/
theorem get?_of_some (h : Grown s t) {n : Node} (hx : s.get? x = some n) :
    t.get? x = some n := by
  rw [h.get?_eq x (lt_size_of_get? hx), hx]

theorem parentOf_of_some (h : Grown s t) {p : NodeId} (hx : s.parentOf x = some p) :
    t.parentOf x = some p := by
  obtain ⟨n, hn⟩ := contains_iff.mp (contains_of_parentOf hx)
  rw [parentOf_of_get? hn] at hx
  rw [parentOf_of_get? (h.get?_of_some hn), hx]

theorem rootOf_of_some (h : Grown s t) {r : RootId} (hx : s.rootOf x = some r) :
    t.rootOf x = some r := by
  obtain ⟨n, hn⟩ := contains_iff.mp (contains_of_rootOf hx)
  rw [rootOf_of_get? hn] at hx
  rw [rootOf_of_get? (h.get?_of_some hn), hx]

end Grown

/-- The number of the next new statement. -/
def fresh (s : Store) : NodeId := ⟨s.slots.size⟩

/-- There is no statement under the next number. -/
theorem get?_fresh (s : Store) : s.get? s.fresh = none := by
  simp [get?, fresh]

section Alloc

variable {s : Store} {x : NodeId}

/-- A new statement is found under the next number. -/
theorem get?_alloc_fresh (s : Store) (n : Node) : (s.alloc n).2.get? s.fresh = some n :=
  get?_alloc_self s n

/-- A live number is not the next one. -/
theorem ne_fresh_of_contains (h : s.contains x = true) : x ≠ s.fresh := by
  rintro rfl
  rw [contains, get?_fresh] at h
  cases h

/-- Making a statement keeps the parents of all others. -/
theorem parentOf_alloc_of_ne (n : Node) (h : x ≠ s.fresh) :
    (s.alloc n).2.parentOf x = s.parentOf x := by
  rw [parentOf, parentOf, get?_alloc_of_ne s n h]

theorem childrenOf_alloc_of_ne (n : Node) (h : x ≠ s.fresh) :
    (s.alloc n).2.childrenOf x = s.childrenOf x := by
  rw [childrenOf, childrenOf, get?_alloc_of_ne s n h]

theorem rootOf_alloc_of_ne (n : Node) (h : x ≠ s.fresh) :
    (s.alloc n).2.rootOf x = s.rootOf x := by
  rw [rootOf, rootOf, get?_alloc_of_ne s n h]

/-- Making a statement lets a store grow. -/
theorem grown_alloc (s : Store) (n : Node) : Grown s (s.alloc n).2 where
  size_le := by simp [alloc]
  get?_eq x hx := by
    refine get?_alloc_of_ne s n ?_
    rintro rfl
    exact Nat.lt_irrefl _ hx
  trees := rfl

end Alloc

/-- Changing a new statement lets a store grow. -/
theorem grown_update (s : Store) {id : NodeId} (hid : s.slots.size ≤ id.index) {t : Store}
    (h : Grown s t) (f : Node → Node) : Grown s (t.update id f) where
  size_le := by rw [size_slots_update]; exact h.size_le
  get?_eq x hx := by
    rw [get?_update_of_ne, h.get?_eq x hx]
    rintro rfl
    omega
  trees := h.trees

/-! ## Loose ends -/

/-- The invariant of a store, except that the parents of the statements in `loose`
do not list them. -/
structure OwnedBut (loose : List NodeId) (s : Store) : Prop where
  mem_children : ∀ p c, c ∈ s.childrenOf p ↔ s.parentOf c = some p ∧ c ∉ loose
  nodup_children : ∀ p, (s.childrenOf p).Nodup
  grounded : ∀ x, s.Grounded x
  loose_live : ∀ c ∈ loose, s.contains c = true
  rooted : s.Rooted
  affiliated : s.Affiliated

/-- The invariant leaves no statement out. -/
theorem Owned.ownedBut {s : Store} (o : s.Owned) : OwnedBut [] s where
  mem_children p c := by simpa using o.wired.mem_children p c
  nodup_children := o.wired.nodup_children
  grounded := o.wired.grounded
  loose_live _ h := by cases h
  rooted := o.rooted
  affiliated := o.affiliated

namespace OwnedBut

variable {s : Store} {loose : List NodeId} {id : NodeId}

/-- The invariant holds when no statement is left out. -/
theorem owned (o : OwnedBut [] s) : s.Owned where
  wired := {
    mem_children := fun p c => by simpa using o.mem_children p c
    nodup_children := o.nodup_children
    grounded := o.grounded }
  rooted := o.rooted
  affiliated := o.affiliated

/-- A statement without a parent is no loose end. -/
theorem of_parentOf_eq_none (o : OwnedBut (id :: loose) s) (h : s.parentOf id = none) :
    OwnedBut loose s where
  mem_children p c := by
    rw [o.mem_children]
    refine and_congr_right fun hp => ?_
    have hne : c ≠ id := by
      rintro rfl
      rw [h] at hp
      cases hp
    simp [hne]
  nodup_children := o.nodup_children
  grounded := o.grounded
  loose_live c hc := o.loose_live c (List.mem_cons_of_mem _ hc)
  rooted := o.rooted
  affiliated := o.affiliated

/-- The parent that a live statement names is live, whether it lists it or not. -/
theorem contains_parent (o : OwnedBut loose s) {c p : NodeId} (h : s.parentOf c = some p) :
    s.contains p = true := by
  rw [← rootOf_isSome, ← o.rooted.rootOf_child c p h, rootOf_isSome]
  exact contains_of_parentOf h

/-- The chains of parents of live statements do not pass a new one. -/
theorem grounded_alloc_of_contains (o : OwnedBut loose s) (n : Node) {x : NodeId}
    (hx : s.contains x = true) : (s.alloc n).2.Grounded x := by
  have hg := o.grounded x
  induction hg with
  | @top x hnone =>
    exact .top (by rw [parentOf_alloc_of_ne n (ne_fresh_of_contains hx)]; exact hnone)
  | @under x p hp _ ih =>
    have hgp := ih (o.contains_parent hp)
    exact .under (by rw [parentOf_alloc_of_ne n (ne_fresh_of_contains hx)]; exact hp) hgp

/-- Every chain of parents ends when a new statement has a live parent, or none. -/
theorem grounded_alloc (o : OwnedBut loose s) {n : Node}
    (hparent : ∀ p, n.parent = some p → s.contains p = true) (x : NodeId) :
    (s.alloc n).2.Grounded x := by
  by_cases hx : x = s.fresh
  · have hnew : (s.alloc n).2.parentOf x = n.parent := by
      rw [hx, parentOf_of_get? (get?_alloc_fresh s n)]
    rcases hp : n.parent with _ | p
    · exact .top (hnew.trans hp)
    · exact .under (hnew.trans hp) (o.grounded_alloc_of_contains n (hparent p hp))
  · rcases hlive : s.contains x with _ | _
    · -- a number without a statement has no parent
      rw [contains, Option.isSome_eq_false_iff, Option.isNone_iff_eq_none] at hlive
      have hnone : (s.alloc n).2.parentOf x = none := by
        rw [parentOf_alloc_of_ne n hx, parentOf, hlive]
        rfl
      exact .top hnone
    · exact o.grounded_alloc_of_contains n hlive

/-- A new statement without children is in no list of children, and has none. -/
theorem mem_children_alloc (o : OwnedBut loose s) {n : Node} (hchildren : n.children = [])
    (p c : NodeId) : c ∈ (s.alloc n).2.childrenOf p ↔
      (s.alloc n).2.parentOf c = some p ∧ c ∉ s.fresh :: loose := by
  have hc : (s.alloc n).2.parentOf c = some p ∧ c ∉ s.fresh :: loose ↔
      s.parentOf c = some p ∧ c ∉ loose := by
    by_cases heq : c = s.fresh
    · have hnone : s.parentOf s.fresh = none := by
        rw [parentOf, get?_fresh]
        rfl
      subst heq
      simp [hnone]
    · rw [parentOf_alloc_of_ne n heq]
      simp [heq]
  rw [hc]
  by_cases hp : p = s.fresh
  · subst hp
    rw [childrenOf_of_get? (get?_alloc_fresh s n), hchildren]
    constructor
    · intro h
      cases h
    · rintro ⟨h, _⟩
      exact absurd rfl (ne_fresh_of_contains (o.contains_parent h))
  · rw [childrenOf_alloc_of_ne n hp]
    exact o.mem_children p c

/-- A new statement stands in the tree of its parent. -/
theorem rooted_alloc (o : OwnedBut loose s) {n : Node}
    (hparent : ∀ p, n.parent = some p → s.rootOf p = some n.root) :
    (s.alloc n).2.Rooted := by
  have hself := get?_alloc_fresh s n
  refine ⟨?_, ?_, ?_⟩
  · intro c p hp
    by_cases hc : c = s.fresh
    · subst hc
      rw [parentOf_of_get? hself] at hp
      have hroot := hparent p hp
      rw [rootOf_of_get? hself, rootOf_alloc_of_ne n
        (ne_fresh_of_contains (contains_of_rootOf hroot)), hroot]
    · rw [parentOf_alloc_of_ne n hc] at hp
      rw [rootOf_alloc_of_ne n hc, rootOf_alloc_of_ne n
        (ne_fresh_of_contains (o.contains_parent hp))]
      exact o.rooted.rootOf_child c p hp
  · intro r x hx
    have hroot := o.rooted.rootOf_top r x hx
    rw [rootOf_alloc_of_ne n (ne_fresh_of_contains (contains_of_rootOf hroot))]
    exact hroot
  · intro r x hx
    have hroot := o.rooted.rootOf_top r x hx
    rw [parentOf_alloc_of_ne n (ne_fresh_of_contains (contains_of_rootOf hroot))]
    exact o.rooted.parentOf_top r x hx

/-- A new statement without children is one loose end more. -/
theorem alloc (o : OwnedBut loose s) {n : Node} (hchildren : n.children = [])
    (hparent : ∀ p, n.parent = some p → s.rootOf p = some n.root) :
    OwnedBut (s.fresh :: loose) (s.alloc n).2 where
  mem_children := o.mem_children_alloc hchildren
  nodup_children p := by
    by_cases hp : p = s.fresh
    · subst hp
      rw [childrenOf_of_get? (get?_alloc_fresh s n), hchildren]
      exact List.nodup_nil
    · rw [childrenOf_alloc_of_ne n hp]
      exact o.nodup_children p
  grounded := o.grounded_alloc fun p hp => contains_of_rootOf (hparent p hp)
  loose_live c hc := by
    rcases List.mem_cons.mp hc with rfl | hc
    · exact contains_iff.mpr ⟨n, get?_alloc_fresh s n⟩
    · obtain ⟨m, hm⟩ := contains_iff.mp (o.loose_live c hc)
      exact contains_iff.mpr ⟨m, (grown_alloc s n).get?_of_some hm⟩
  rooted := o.rooted_alloc hparent
  affiliated := o.affiliated.of_trees_eq rfl

section Tie

variable {p : NodeId}

/-- A statement is listed last among the children of its parent. -/
theorem childrenOf_tie (o : OwnedBut (id :: loose) s) (hp : s.parentOf id = some p) :
    (s.update p (·.pushChild id)).childrenOf p = s.childrenOf p ++ [id] := by
  obtain ⟨n, hn⟩ := contains_iff.mp (o.contains_parent hp)
  rw [childrenOf_update_self hn, childrenOf_of_get? hn]
  rfl

/-- Listing a child changes no parent. -/
theorem parentOf_tie (x : NodeId) :
    (s.update p (·.pushChild id)).parentOf x = s.parentOf x :=
  parentOf_update (by intro n; rfl)

/-- Listing a child moves no statement to another tree. -/
theorem rootOf_tie (x : NodeId) : (s.update p (·.pushChild id)).rootOf x = s.rootOf x :=
  rootOf_update (by intro n; rfl)

/-- A loose end that its parent lists is a child like others. -/
theorem mem_children_tie (o : OwnedBut (id :: loose) s) (hp : s.parentOf id = some p)
    (hid : id ∉ loose) (q c : NodeId) : c ∈ (s.update p (·.pushChild id)).childrenOf q ↔
      (s.update p (·.pushChild id)).parentOf c = some q ∧ c ∉ loose := by
  rw [parentOf_tie]
  by_cases hq : q = p
  · subst hq
    rw [o.childrenOf_tie hp, List.mem_append, List.mem_singleton, o.mem_children]
    by_cases hc : c = id
    · simp [hc, hp, hid]
    · simp [hc]
  · rw [childrenOf_update_of_ne hq, o.mem_children]
    refine and_congr_right fun hc => ?_
    have hne : c ≠ id := by
      rintro rfl
      rw [hp] at hc
      exact hq (Option.some.inj hc).symm
    simp [hne]

/-- A loose end is tied when its parent lists it. -/
theorem tie (o : OwnedBut (id :: loose) s) (hp : s.parentOf id = some p)
    (hid : id ∉ loose) : OwnedBut loose (s.update p (·.pushChild id)) where
  mem_children := o.mem_children_tie hp hid
  nodup_children q := by
    by_cases hq : q = p
    · subst hq
      rw [o.childrenOf_tie hp, ← List.concat_eq_append, List.nodup_concat]
      refine ⟨fun hmem => ?_, o.nodup_children q⟩
      exact ((o.mem_children q id).mp hmem).2 List.mem_cons_self
    · rw [childrenOf_update_of_ne hq]
      exact o.nodup_children q
  grounded x := (o.grounded x).of_parentOf_eq fun y _ => parentOf_tie y
  loose_live c hc := by
    rw [contains_update]
    exact o.loose_live c (List.mem_cons_of_mem _ hc)
  rooted := {
    rootOf_child := fun c q hc => by
      rw [parentOf_tie] at hc
      rw [rootOf_tie, rootOf_tie]
      exact o.rooted.rootOf_child c q hc
    rootOf_top := fun r x hx => by
      rw [rootOf_tie]
      exact o.rooted.rootOf_top r x hx
    parentOf_top := fun r x hx => by
      rw [parentOf_tie]
      exact o.rooted.parentOf_top r x hx }
  affiliated := o.affiliated.of_trees_eq rfl

end Tie

end OwnedBut

/-- A new statement without parent and children is a detached subtree. -/
theorem Owned.alloc {s : Store} (o : s.Owned) {n : Node} (hparent : n.parent = none)
    (hchildren : n.children = []) : (s.alloc n).2.Owned := by
  have h := o.ownedBut.alloc hchildren fun p hp => by rw [hparent] at hp; cases hp
  refine (h.of_parentOf_eq_none ?_).owned
  rw [parentOf_of_get? (get?_alloc_fresh s n), hparent]

end Store

namespace StoreM

open Store

variable {s t : Store} {parent : NodeId}

/-! ## Copying -/

/-- A copy of a subtree, made in a store that has grown out of the one with the
original, is a loose end below its parent. -/
theorem copyWithin_succeeds (o : s.Owned) {height d : Nat} {source : NodeId}
    (hsource : s.contains source = true) (hd : s.Depth source d)
    (hh : s.slots.size ≤ height + d) {loose : List NodeId} {root : RootId} (hst : Grown s t)
    (ot : OwnedBut loose t) (hroot : t.rootOf parent = some root) :
    Succeeds (copyWithin height source parent root) t fun id u =>
      t.slots.size ≤ id.index ∧ Grown t u ∧ OwnedBut (id :: loose) u ∧
        u.parentOf id = some parent := by
  induction height generalizing source d t parent loose with
  | zero =>
    have hlt := o.wired.depth_lt_size hd hsource
    omega
  | succ height ih =>
    obtain ⟨n, hn⟩ := contains_iff.mp hsource
    have hself : (t.alloc (n.copyBelow parent root)).2.get? t.fresh =
        some (n.copyBelow parent root) := get?_alloc_fresh t _
    refine Yields.bind_of_eq (node_apply (hst.get?_of_some hn)) ?_
    apply Yields.bind_of_eq (modifyGet_apply _ t)
    -- while the children are copied, the copy keeps its parent and its tree
    refine Yields.bind (Q := fun _ u => Grown t u ∧ OwnedBut (t.fresh :: loose) u ∧
      u.parentOf t.fresh = some parent ∧ u.rootOf t.fresh = some root) ?_ ?_
    · refine Yields.forM_of_invariant ⟨grown_alloc t _, ?_, ?_, ?_⟩ ?_
      · refine ot.alloc rfl fun p hp => ?_
        cases hp
        exact hroot
      · rw [parentOf_of_get? hself]
        rfl
      · rw [rootOf_of_get? hself]
        rfl
      · intro c hc u ⟨hu, ou, hparent, hrootu⟩
        rw [← childrenOf_of_get? hn] at hc
        refine Yields.bind (ih (o.wired.contains_child hc) (o.wired.depth_child hd hc)
          (by omega) (hst.trans hu) ou hrootu) ?_
        intro copy v ⟨hcopy, hv, ov, hvparent⟩
        have hnew : copy ∉ t.fresh :: loose := fun hmem => by
          have hlt := lt_size_of_contains (ou.loose_live copy hmem)
          omega
        obtain ⟨m, hm⟩ := contains_iff.mp (ov.contains_parent hvparent)
        refine Yields.of_eq (update_apply hm _) ⟨?_, ov.tie hvparent hnew, ?_, ?_⟩
        · exact grown_update t (Nat.le_refl _) (hu.trans hv) _
        · rw [parentOf_update (by intro n; rfl)]
          exact hv.parentOf_of_some hparent
        · rw [rootOf_update (by intro n; rfl)]
          exact hv.rootOf_of_some hrootu
    · intro _ u ⟨hu, ou, hparent, _⟩
      exact Yields.pure ⟨Nat.le_refl _, hu, ou, hparent⟩

/-- Copying a subtree below a new parent fails without any change, or keeps the
invariant.  Only live statements are copied, and only below live ones. -/
theorem cloneSubtree_outcome (o : s.Owned) (source newParent : NodeId) :
    Yields (fun _ t => t = s) (cloneSubtree source newParent) s fun _ t =>
      t.Owned ∧ s.contains source = true ∧ s.contains newParent = true := by
  rw [cloneSubtree]
  rcases hp : s.get? newParent with _ | p
  · exact Yields.bind_of_error (node_apply_of_none hp) rfl
  refine Yields.bind_of_eq (node_apply hp) (Yields.bind_get ?_)
  rcases hn : s.get? source with _ | n
  · exact Yields.bind_of_error (bind_apply_of_error (node_apply_of_none hn)) rfl
  have hsource := contains_iff.mpr ⟨n, hn⟩
  obtain ⟨d, hd⟩ := (o.wired.grounded source).exists_depth
  apply Yields.of_succeeds
  refine Yields.bind (copyWithin_succeeds o hsource hd (by omega) (Grown.refl s) o.ownedBut
    (rootOf_of_get? hp)) ?_
  intro copy t ⟨_, _, ot, hparent⟩
  obtain ⟨m, hm⟩ := contains_iff.mp (ot.contains_parent hparent)
  refine Yields.bind_of_eq (update_apply hm _) (Yields.pure ⟨?_, hsource, ?_⟩)
  · exact (ot.tie hparent List.not_mem_nil).owned
  · exact contains_iff.mpr ⟨p, hp⟩

/-! ## Statements for elements -/

/-- The statement that is made for an element. -/
def freshNode (e : Element) (r : Resolution) (root : RootId) : Node :=
  { key := r.key, variant := r.variant, element := e, root }

/-- No statement stands below a new one. -/
theorem not_below_fresh (o : s.Owned) {x : NodeId} (hx : s.contains x = true) (n : Node) :
    ¬ (s.alloc n).2.Below s.fresh x := by
  intro hbelow
  have hold : s.Below s.fresh x := (below_congr fun y hy =>
    parentOf_alloc_of_ne n (ne_fresh_of_contains (o.wired.contains_of_below hx hy))).mp hbelow
  exact ne_fresh_of_contains (o.wired.contains_of_below hx hold) rfl

/-- A new statement fits below every live statement. -/
theorem attachable_fresh (o : s.Owned) (hparent : s.contains parent = true) (n : Node) :
    Attachable (s.alloc n).2 parent s.fresh := by
  constructor
  · obtain ⟨p, hp⟩ := contains_iff.mp hparent
    exact contains_iff.mpr ⟨p, (grown_alloc s n).get?_of_some hp⟩
  · exact contains_iff.mpr ⟨n, get?_alloc_fresh s n⟩
  · exact not_below_fresh o hparent n
  · rw [isTop_eq_false_iff]
    intro r hr
    exact ne_fresh_of_contains (contains_of_rootOf (o.rooted.rootOf_top r _ hr)) rfl

variable {suppliers : Suppliers} {e : Element} {root : RootId}

/-- An element that is no statement leaves the store as it is. -/
theorem instantiate_of_error {finding : Finding}
    (h : suppliers.resolveElement e = .error finding) (parent? : Option NodeId) :
    instantiate suppliers e parent? root s = (.ok (.rejected finding), s) := by
  simp only [instantiate, h, pure_apply]

/-- A statement on its own takes the next slot. -/
theorem instantiate_none_apply {r : Resolution} (h : suppliers.resolveElement e = .ok r) :
    instantiate suppliers e none root s =
      (.ok (.created s.fresh), (s.alloc (freshNode e r root)).2) := by
  simp only [instantiate, h, bind_apply, modifyGet_apply, pure_apply]
  rfl

/-- A statement below a parent takes the next slot and is appended there. -/
theorem instantiate_some_apply {r : Resolution} (h : suppliers.resolveElement e = .ok r) :
    instantiate suppliers e (some parent) root s =
      (appendChild parent s.fresh >>= fun _ => pure (.created s.fresh))
        (s.alloc (freshNode e r root)).2 := by
  simp only [instantiate, h, bind_apply, modifyGet_apply]
  rfl

/-- Making a statement keeps the invariant, also when it cannot be put below its
parent. -/
theorem instantiate_outcome (o : s.Owned) (suppliers : Suppliers) (e : Element)
    (parent? : Option NodeId) (root : RootId) :
    Yields (fun _ t => t.Owned) (instantiate suppliers e parent? root) s
      fun _ t => t.Owned := by
  rcases h : suppliers.resolveElement e with finding | r
  · exact Yields.of_eq (instantiate_of_error h parent?) o
  have onew : (s.alloc (freshNode e r root)).2.Owned := o.alloc rfl rfl
  rcases parent? with _ | parent
  · exact Yields.of_eq (instantiate_none_apply h) onew
  unfold Yields
  rw [instantiate_some_apply h]
  change Yields (fun _ (t : Store) => t.Owned) _ _ _
  refine Yields.bind ((addChild_outcome onew parent s.fresh none).mono (fun _ _ ht => ht.1) ?_)
    fun _ _ ht => Yields.pure ht
  rintro _ _ rfl
  exact onew

/-- A statement for an element is made below a live parent, as its last child. -/
theorem instantiate_some_succeeds (o : s.Owned) (hparent : s.contains parent = true)
    {r : Resolution} (h : suppliers.resolveElement e = .ok r) :
    Succeeds (instantiate suppliers e (some parent) root) s fun i t =>
      i = .created s.fresh ∧ t.Owned ∧
        Relinked (s.alloc (freshNode e r root)).2 t s.fresh (some parent) ∧
        t.childrenOf parent = s.childrenOf parent ++ [s.fresh] ∧
        ∀ x, x ≠ parent → t.childrenOf x = s.childrenOf x := by
  have hne := ne_fresh_of_contains hparent
  have hnew := get?_alloc_fresh s (freshNode e r root)
  have hattach := attachable_fresh o hparent (freshNode e r root)
  have hself : ((s.alloc (freshNode e r root)).2.link parent s.fresh none).childrenOf parent =
      s.childrenOf parent ++ [s.fresh] := by
    obtain ⟨p, hp⟩ := contains_iff.mp hattach.parent_live
    rw [link, childrenOf_update (by intro n; rfl), childrenOf_update_self hp,
      ← childrenOf_alloc_of_ne (freshNode e r root) hne, childrenOf_of_get? hp,
      Node.insertChild, Option.getD_none, Nat.min_self]
    exact List.insertIdx_length_self
  have hother : ∀ x, x ≠ parent →
      ((s.alloc (freshNode e r root)).2.link parent s.fresh none).childrenOf x =
        s.childrenOf x := by
    intro x hx
    rw [childrenOf_link_of_ne hx]
    by_cases hf : x = s.fresh
    · rw [hf, childrenOf_of_get? hnew, Store.childrenOf, get?_fresh]
      rfl
    · exact childrenOf_alloc_of_ne _ hf
  unfold Succeeds Yields
  rw [instantiate_some_apply h]
  change Succeeds _ _ _
  apply Yields.bind (addChild_detached_succeeds (o.alloc rfl rfl) hattach
    (parentOf_of_get? hnew) none)
  rintro _ t ⟨ot, ht, hchildren⟩
  exact Yields.pure ⟨rfl, ot, ht, (hchildren parent).trans hself,
    fun x hx => (hchildren x).trans (hother x hx)⟩

end StoreM
end StatementForest
