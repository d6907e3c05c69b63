import StatementForest.Proofs.Store.Ancestry

/-!
# Ownership

A store says twice who owns a statement: in the list of children of the parent
and in the statement itself.  It also says twice which tree is a submodule of
which.  `Owned` is the invariant that both directions agree, that chains of
parents end, and that statements stand in the tree they name.

Main results:

- Theorem `Store.Wired.count_children`: a child occurs once in all lists of
  children together.
- Theorem `Store.Rooted.rootOf_eq_of_below`: a subtree stands in one tree.
- Theorem `Store.Owned.of_parallel`: what does not touch the links keeps the
  invariant.
-/

namespace StatementForest

/-- What a statement is, apart from its place and from what was found out about it. -/
def Node.face (n : Node) : Key × Variant × Element := (n.key, n.variant, n.element)

namespace Store

/-- What the statement with a number is, if it is live. -/
def faceOf (s : Store) (id : NodeId) : Option (Key × Variant × Element) :=
  (s.get? id).map Node.face

/-! ## The invariant -/

/-- Children and parents agree, and no statement stands below itself. -/
structure Wired (s : Store) : Prop where
  mem_children : ∀ p c, c ∈ s.childrenOf p ↔ s.parentOf c = some p
  nodup_children : ∀ p, (s.childrenOf p).Nodup
  grounded : ∀ x, s.Grounded x

/-- A child stands in the tree of its parent, and the top of a tree is a live
statement of that tree without a parent. -/
structure Rooted (s : Store) : Prop where
  rootOf_child : ∀ c p, s.parentOf c = some p → s.rootOf c = s.rootOf p
  rootOf_top : ∀ r x, s.topOf r = some x → s.rootOf x = some r
  parentOf_top : ∀ r x, s.topOf r = some x → s.parentOf x = none

/-- Submodules and owners agree, and no tree owns itself. -/
structure Affiliated (s : Store) : Prop where
  mem_submodules : ∀ r q, q ∈ s.submodulesOf r ↔ s.ownerOf q = some r
  nodup_submodules : ∀ r, (s.submodulesOf r).Nodup
  ownerOf_ne_self : ∀ r, s.ownerOf r ≠ some r

/-- The invariant of a store. -/
structure Owned (s : Store) : Prop where
  wired : s.Wired
  rooted : s.Rooted
  affiliated : s.Affiliated

/-- A store without statements satisfies the invariant. -/
theorem Owned.empty : ({} : Store).Owned := by
  have hparentOf : ∀ x, ({} : Store).parentOf x = none := fun _ => rfl
  have htopOf : ∀ r, ({} : Store).topOf r = none := fun _ => rfl
  have hownerOf : ∀ r, ({} : Store).ownerOf r = none := fun _ => rfl
  have hchildrenOf : ∀ x, ({} : Store).childrenOf x = [] := fun _ => rfl
  have hsubmodulesOf : ∀ r, ({} : Store).submodulesOf r = [] := fun _ => rfl
  constructor
  · exact ⟨by simp [hparentOf, hchildrenOf], by simp [hchildrenOf], fun x => .top (hparentOf x)⟩
  · exact ⟨by simp [hparentOf], by simp [htopOf], by simp [htopOf]⟩
  · exact ⟨by simp [hownerOf, hsubmodulesOf], by simp [hsubmodulesOf], by simp [hownerOf]⟩

variable {s t : Store}

/-! ## Live statements -/

/-- A number is live when there is a statement with it. -/
theorem contains_iff {x : NodeId} : s.contains x = true ↔ ∃ n, s.get? x = some n := by
  rw [contains, Option.isSome_iff_exists]

theorem ne_of_contains {x y : NodeId} (hx : s.contains x = true) (hy : s.contains y = false) :
    x ≠ y := by
  rintro rfl
  simp [hx] at hy

theorem lt_size_of_get? {x : NodeId} {n : Node} (h : s.get? x = some n) :
    x.index < s.slots.size := by
  by_contra hge
  rw [get?, Array.getElem?_eq_none (by omega)] at h
  cases h

theorem lt_size_of_contains {x : NodeId} (h : s.contains x = true) :
    x.index < s.slots.size := by
  obtain ⟨n, hn⟩ := contains_iff.mp h
  exact lt_size_of_get? hn

theorem parentOf_of_get? {x : NodeId} {n : Node} (h : s.get? x = some n) :
    s.parentOf x = n.parent := by
  rw [parentOf, h]
  rfl

theorem childrenOf_of_get? {x : NodeId} {n : Node} (h : s.get? x = some n) :
    s.childrenOf x = n.children := by
  rw [childrenOf, h]

theorem rootOf_of_get? {x : NodeId} {n : Node} (h : s.get? x = some n) :
    s.rootOf x = some n.root := by
  rw [rootOf, h]
  rfl

theorem rootOf_isSome {x : NodeId} : (s.rootOf x).isSome = s.contains x := by
  rw [rootOf, contains, Option.isSome_map]

theorem contains_of_rootOf {x : NodeId} {r : RootId} (h : s.rootOf x = some r) :
    s.contains x = true := by
  rw [← rootOf_isSome, h]
  rfl

theorem contains_of_parentOf {x p : NodeId} (h : s.parentOf x = some p) :
    s.contains x = true := by
  rw [parentOf, Option.bind_eq_some_iff] at h
  obtain ⟨n, hn, _⟩ := h
  exact contains_iff.mpr ⟨n, hn⟩

theorem contains_of_mem_childrenOf {p c : NodeId} (h : c ∈ s.childrenOf p) :
    s.contains p = true := by
  rw [childrenOf] at h
  split at h
  · next n hn => exact contains_iff.mpr ⟨n, hn⟩
  · cases h

/-- What depends on the face of a statement only is the same where the face is. -/
theorem map_get?_of_faceOf {β : Type} {w : Node → β} {x : NodeId}
    (hw : ∀ n m : Node, m.face = n.face → w m = w n) (h : t.faceOf x = s.faceOf x) :
    (t.get? x).map w = (s.get? x).map w := by
  rw [faceOf, faceOf] at h
  rcases ht : t.get? x with _ | m <;> rcases hs : s.get? x with _ | n <;> simp [ht, hs] at h
  · rfl
  · rw [Option.map_some, Option.map_some, hw n m h]

/-- A store is known when its trees, the number of its slots and its statements are. -/
theorem eq_of_get? (hsize : t.slots.size = s.slots.size)
    (htrees : t.trees = s.trees) (hget : ∀ x, t.get? x = s.get? x) : t = s := by
  obtain ⟨slots, trees⟩ := s
  obtain ⟨slots', trees'⟩ := t
  cases htrees
  congr 1
  refine Array.ext hsize fun i hi hi' => ?_
  have hi := hget ⟨i⟩
  simp only [get?, Array.getElem?_eq_getElem, *] at hi
  exact hi

/-- Looking up a statement returns it. -/
theorem node_of_get? {x : NodeId} {n : Node} (h : s.get? x = some n) : s.node x = .ok n := by
  rw [node, h]

/-- Looking up a number without a statement fails. -/
theorem node_of_not_contains {x : NodeId} (h : s.contains x = false) :
    s.node x = .error (.nodeNotFound x) := by
  rw [contains, Option.isSome_eq_false_iff, Option.isNone_iff_eq_none] at h
  rw [node, h]

/-- A top is the top of some tree. -/
theorem isTop_iff {x : NodeId} : s.isTop x = true ↔ ∃ r, s.topOf r = some x := by
  simp only [isTop, Array.any_eq_true, beq_iff_eq, topOf, tree?, Option.bind_eq_some_iff]
  constructor
  · rintro ⟨i, hi, htop⟩
    exact ⟨⟨i⟩, s.trees[i], by simp [hi], htop⟩
  · rintro ⟨r, tree, htree, htop⟩
    obtain ⟨hi, rfl⟩ := Array.getElem?_eq_some_iff.mp htree
    exact ⟨r.index, hi, htop⟩

/-- What is no top is the top of no tree. -/
theorem isTop_eq_false_iff {x : NodeId} : s.isTop x = false ↔ ∀ r, s.topOf r ≠ some x := by
  rw [← Bool.not_eq_true, isTop_iff, not_exists]

/-- The live numbers are listed. -/
theorem mem_liveIds {x : NodeId} : x ∈ s.liveIds ↔ s.contains x = true := by
  simp only [liveIds, slotIds, List.mem_filter, List.mem_map, List.mem_range]
  constructor
  · exact And.right
  · exact fun h => ⟨⟨x.index, lt_size_of_contains h, rfl⟩, h⟩

/-- No live number is listed twice. -/
theorem nodup_liveIds (s : Store) : s.liveIds.Nodup := by
  have hslots : s.slotIds.Nodup :=
    List.nodup_range.map fun i j hij => NodeId.mk.inj hij
  exact hslots.filter s.contains

/-! ## Consequences -/

namespace Wired

variable (w : s.Wired) {p q c x : NodeId}

include w

/-- The parent of a child is the statement that lists it. -/
theorem parentOf_of_mem (h : c ∈ s.childrenOf p) : s.parentOf c = some p :=
  (w.mem_children p c).mp h

/-- A statement is among the children of its parent. -/
theorem mem_of_parentOf (h : s.parentOf c = some p) : c ∈ s.childrenOf p :=
  (w.mem_children p c).mpr h

/-- Children are live. -/
theorem contains_child (h : c ∈ s.childrenOf p) : s.contains c = true :=
  contains_of_parentOf (w.parentOf_of_mem h)

/-- Parents are live. -/
theorem contains_parent (h : s.parentOf c = some p) : s.contains p = true :=
  contains_of_mem_childrenOf (w.mem_of_parentOf h)

/-- The parent that a live statement names is live. -/
theorem contains_of_parent {n : Node} (hn : s.get? x = some n) (hp : n.parent = some p) :
    s.contains p = true :=
  w.contains_parent (by rw [parentOf_of_get? hn, hp])

/-- Whatever stands above or below a live statement is live. -/
theorem contains_of_below (hx : s.contains x = true) (h : s.Below p x) :
    s.contains p = true := by
  induction h with
  | self => exact hx
  | under hq _ ih => exact ih (w.contains_parent hq)

/-- A statement has one parent, so lists of children do not share any. -/
theorem eq_of_mem_of_mem (hp : c ∈ s.childrenOf p) (hq : c ∈ s.childrenOf q) : p = q := by
  have hcp := w.parentOf_of_mem hp
  rw [w.parentOf_of_mem hq] at hcp
  exact (Option.some.inj hcp).symm

/-- Different statements have no child in common. -/
theorem disjoint_children (hne : p ≠ q) : (s.childrenOf p).Disjoint (s.childrenOf q) := by
  intro c hp hq
  exact hne (w.eq_of_mem_of_mem hp hq)

/-- The lists of children of different statements, put together, name no child twice. -/
theorem nodup_flatMap_children {ids : List NodeId} (h : ids.Nodup) :
    (ids.flatMap s.childrenOf).Nodup := by
  rw [List.nodup_flatMap]
  refine ⟨fun p _ => w.nodup_children p, ?_⟩
  exact h.imp fun hne => w.disjoint_children hne

/-- A child is listed once among all lists of children. -/
theorem count_children (h : c ∈ s.childrenOf p) :
    (s.liveIds.flatMap s.childrenOf).count c = 1 := by
  have hnodup := w.nodup_flatMap_children s.nodup_liveIds
  have hp := mem_liveIds.mpr (contains_of_mem_childrenOf h)
  exact List.count_eq_one_of_mem hnodup (List.mem_flatMap_of_mem hp h)

end Wired

/-- All statements of a subtree stand in the tree of its first one. -/
theorem Rooted.rootOf_eq_of_below (hr : s.Rooted) {a x : NodeId} (h : s.Below a x) :
    s.rootOf x = s.rootOf a := by
  induction h with
  | self => rfl
  | under hp _ ih => rw [hr.rootOf_child _ _ hp, ih]

/-- What has a parent is no top. -/
theorem Rooted.not_isTop_of_parentOf (hr : s.Rooted) {x p : NodeId}
    (h : s.parentOf x = some p) : s.isTop x = false := by
  rw [isTop_eq_false_iff]
  intro r hr'
  rw [hr.parentOf_top r x hr'] at h
  cases h

/-! ## Changes that do not touch the links -/

/-- Two stores with the same links between the same statements. -/
structure Parallel (s t : Store) : Prop where
  size : t.slots.size = s.slots.size
  parentOf : ∀ x, t.parentOf x = s.parentOf x
  childrenOf : ∀ x, t.childrenOf x = s.childrenOf x
  rootOf : ∀ x, t.rootOf x = s.rootOf x
  faceOf : ∀ x, t.faceOf x = s.faceOf x
  trees : t.trees = s.trees

namespace Parallel

theorem refl (s : Store) : Parallel s s :=
  ⟨rfl, fun _ => rfl, fun _ => rfl, fun _ => rfl, fun _ => rfl, rfl⟩

theorem trans {u : Store} (h : Parallel s t) (h' : Parallel t u) : Parallel s u where
  size := h'.size.trans h.size
  parentOf x := (h'.parentOf x).trans (h.parentOf x)
  childrenOf x := (h'.childrenOf x).trans (h.childrenOf x)
  rootOf x := (h'.rootOf x).trans (h.rootOf x)
  faceOf x := (h'.faceOf x).trans (h.faceOf x)
  trees := h'.trees.trans h.trees

/-- Stores with the same links have the same live numbers. -/
theorem contains (h : Parallel s t) (x : NodeId) : t.contains x = s.contains x := by
  rw [← rootOf_isSome, ← rootOf_isSome, h.rootOf]

/-- Stores with the same links have the same tops. -/
theorem topOf (h : Parallel s t) (r : RootId) : t.topOf r = s.topOf r := by
  simp only [Store.topOf, tree?, h.trees]

/-- Stores with the same links have the same statements below each one. -/
theorem below_iff (h : Parallel s t) {a x : NodeId} : t.Below a x ↔ s.Below a x :=
  below_congr_of_parentOf_eq h.parentOf

end Parallel

/-- Parents and children that agree in one store agree in another with the same ones. -/
theorem Wired.congr (w : s.Wired) (hp : ∀ x, t.parentOf x = s.parentOf x)
    (hc : ∀ x, t.childrenOf x = s.childrenOf x) : t.Wired where
  mem_children p c := by rw [hp, hc]; exact w.mem_children p c
  nodup_children p := by rw [hc]; exact w.nodup_children p
  grounded x := (w.grounded x).of_parentOf_eq fun y _ => hp y

/-- Parents and children that agree do so in any store with the same links. -/
theorem Wired.of_parallel (w : s.Wired) (h : Parallel s t) : t.Wired :=
  w.congr h.parentOf h.childrenOf

/-- Submodules and owners that agree do so in any store with the same trees. -/
theorem Affiliated.of_trees_eq (ha : s.Affiliated) (h : t.trees = s.trees) :
    t.Affiliated := by
  have howner : ∀ r, t.ownerOf r = s.ownerOf r := fun r => by simp only [ownerOf, tree?, h]
  have hsub : ∀ r, t.submodulesOf r = s.submodulesOf r := fun r => by
    simp only [submodulesOf, tree?, h]
  constructor
  · intro r q
    rw [howner, hsub]
    exact ha.mem_submodules r q
  · intro r
    rw [hsub]
    exact ha.nodup_submodules r
  · intro r
    rw [howner]
    exact ha.ownerOf_ne_self r

/-- The same links satisfy the same invariant. -/
theorem Owned.of_parallel (o : s.Owned) (h : Parallel s t) : t.Owned where
  wired := o.wired.of_parallel h
  rooted := {
    rootOf_child := fun c p hp => by
      rw [h.parentOf] at hp
      rw [h.rootOf, h.rootOf]
      exact o.rooted.rootOf_child c p hp
    rootOf_top := fun r x hx => by
      rw [h.topOf] at hx
      rw [h.rootOf]
      exact o.rooted.rootOf_top r x hx
    parentOf_top := fun r x hx => by
      rw [h.topOf] at hx
      rw [h.parentOf]
      exact o.rooted.parentOf_top r x hx }
  affiliated := o.affiliated.of_trees_eq h.trees

/-! ## Links after an update -/

/-- Changing a statement changes what is found under its number, and nothing else. -/
theorem get?_update (s : Store) (id : NodeId) (f : Node → Node) (x : NodeId) :
    (s.update id f).get? x = if x = id then (s.get? x).map f else s.get? x := by
  split
  · next h =>
    subst h
    exact get?_update_self s x f
  · next h => exact get?_update_of_ne s f h

section Update

variable {id x : NodeId} {f : Node → Node}

/-- Changing a statement keeps what is live. -/
theorem contains_update : (s.update id f).contains x = s.contains x := by
  rw [contains, contains, get?_update]
  split <;> simp

/-- Changing a statement keeps the parents of all others. -/
theorem parentOf_update_of_ne (h : x ≠ id) : (s.update id f).parentOf x = s.parentOf x := by
  rw [parentOf, parentOf, get?_update_of_ne s f h]

/-- Changing a statement keeps the children of all others. -/
theorem childrenOf_update_of_ne (h : x ≠ id) :
    (s.update id f).childrenOf x = s.childrenOf x := by
  rw [childrenOf, childrenOf, get?_update_of_ne s f h]

/-- Changing a statement keeps the trees of all others. -/
theorem rootOf_update_of_ne (h : x ≠ id) : (s.update id f).rootOf x = s.rootOf x := by
  rw [rootOf, rootOf, get?_update_of_ne s f h]

/-- An update that keeps the parent of a statement keeps all parents. -/
theorem parentOf_update (hf : ∀ n, (f n).parent = n.parent) :
    (s.update id f).parentOf x = s.parentOf x := by
  by_cases h : x = id
  · subst h
    rw [parentOf, parentOf, get?_update_self]
    rcases s.get? x with _ | n
    · rfl
    · exact hf n
  · exact parentOf_update_of_ne h

/-- An update that keeps the children of a statement keeps all children. -/
theorem childrenOf_update (hf : ∀ n, (f n).children = n.children) :
    (s.update id f).childrenOf x = s.childrenOf x := by
  by_cases h : x = id
  · subst h
    rw [childrenOf, childrenOf, get?_update_self]
    rcases s.get? x with _ | n
    · rfl
    · exact hf n
  · exact childrenOf_update_of_ne h

/-- An update that keeps the tree of a statement keeps all trees of statements. -/
theorem rootOf_update (hf : ∀ n, (f n).root = n.root) :
    (s.update id f).rootOf x = s.rootOf x := by
  by_cases h : x = id
  · subst h
    rw [rootOf, rootOf, get?_update_self]
    rcases s.get? x with _ | n
    · rfl
    · simp [hf n]
  · exact rootOf_update_of_ne h

/-- An update that keeps what a statement is keeps what all statements are. -/
theorem faceOf_update (hf : ∀ n, (f n).face = n.face) :
    (s.update id f).faceOf x = s.faceOf x := by
  rw [faceOf, faceOf, get?_update]
  split
  · rcases s.get? x with _ | n
    · rfl
    · simp [hf n]
  · rfl

/-- What an update does to the children of a live statement. -/
theorem childrenOf_update_self {n : Node} (h : s.get? id = some n) :
    (s.update id f).childrenOf id = (f n).children := by
  rw [childrenOf, get?_update_self, h]
  rfl

/-- What an update does to the parent of a live statement. -/
theorem parentOf_update_self {n : Node} (h : s.get? id = some n) :
    (s.update id f).parentOf id = (f n).parent := by
  rw [parentOf, get?_update_self, h]
  rfl

end Update

end Store

/-- A change of a statement that does not touch its links, nor what it is. -/
structure Node.KeepsLinks (f : Node → Node) : Prop where
  parent : ∀ n, (f n).parent = n.parent
  children : ∀ n, (f n).children = n.children
  root : ∀ n, (f n).root = n.root
  face : ∀ n, (f n).face = n.face

/-- A change of a statement that keeps its links keeps the links of the store. -/
theorem Store.parallel_update {s : Store} {f : Node → Node} (hf : Node.KeepsLinks f)
    (id : NodeId) : Parallel s (s.update id f) where
  size := size_slots_update s id f
  parentOf _ := parentOf_update hf.parent
  childrenOf _ := childrenOf_update hf.children
  rootOf _ := rootOf_update hf.root
  faceOf _ := faceOf_update hf.face
  trees := rfl

end StatementForest
