import StatementForest.Proofs.Store.TreesAndTops
import StatementForest.Store.Merge

/-!
# Merged stores

A merged store falls into two parts that do not refer to each other: the numbers
below those of the first store, and the shifted numbers of the second one.  Each
part has the links of the store that it comes from.

Main results:

- Theorem `Store.Owned.absorb`: merging two stores keeps the invariant.
- Theorem `Store.below_absorb_left`, `Store.below_absorb_right`: a statement
  stands below the same statements as before.
-/

namespace StatementForest

/-! ## Shifted numbers -/

/-- Different statements stay different when they are shifted. -/
theorem NodeId.shift_inj {x y : NodeId} {offset : Nat} :
    x.shift offset = y.shift offset ↔ x = y := by
  constructor
  · intro h
    cases x
    cases y
    simp only [NodeId.shift, NodeId.mk.injEq] at h ⊢
    omega
  · rintro rfl
    rfl

/-- Different trees stay different when they are shifted. -/
theorem RootId.shift_inj {r q : RootId} {offset : Nat} :
    r.shift offset = q.shift offset ↔ r = q := by
  constructor
  · intro h
    cases r
    cases q
    simp only [RootId.shift, RootId.mk.injEq] at h ⊢
    omega
  · rintro rfl
    rfl

/-- A number is one of the first numbers or a shifted one. -/
theorem NodeId.lt_or_shift (x : NodeId) (offset : Nat) :
    x.index < offset ∨ ∃ y : NodeId, x = y.shift offset := by
  by_cases h : x.index < offset
  · exact .inl h
  · refine .inr ⟨⟨x.index - offset⟩, ?_⟩
    cases x
    simp only [NodeId.shift, NodeId.mk.injEq] at h ⊢
    omega

/-- A tree is in front of an offset, or it is a tree shifted by it. -/
theorem RootId.lt_or_shift (r : RootId) (offset : Nat) :
    r.index < offset ∨ ∃ q : RootId, r = q.shift offset := by
  by_cases h : r.index < offset
  · exact .inl h
  · refine .inr ⟨⟨r.index - offset⟩, ?_⟩
    cases r
    simp only [RootId.shift, RootId.mk.injEq] at h ⊢
    omega

/-- A shifted statement is not in front of the offset. -/
theorem NodeId.not_shift_lt {x : NodeId} {offset : Nat} : ¬ (x.shift offset).index < offset := by
  simp [NodeId.shift]

/-- A shifted tree is not in front of the offset. -/
theorem RootId.not_shift_lt {r : RootId} {offset : Nat} : ¬ (r.shift offset).index < offset := by
  simp [RootId.shift]

namespace Store

variable {s other : Store} {x a : NodeId} {r : RootId}

/-! ## The first part -/

section Left

variable (h : x.index < s.slots.size)

include h

/-- A statement of the first store keeps its parent. -/
theorem parentOf_absorb_left : (s.absorb other).parentOf x = s.parentOf x := by
  rw [parentOf, parentOf, get?_absorb_left h]

theorem childrenOf_absorb_left : (s.absorb other).childrenOf x = s.childrenOf x := by
  rw [childrenOf, childrenOf, get?_absorb_left h]

theorem rootOf_absorb_left : (s.absorb other).rootOf x = s.rootOf x := by
  rw [rootOf, rootOf, get?_absorb_left h]

theorem faceOf_absorb_left : (s.absorb other).faceOf x = s.faceOf x := by
  rw [faceOf, faceOf, get?_absorb_left h]

end Left

theorem tree?_absorb_left (h : r.index < s.trees.size) :
    (s.absorb other).tree? r = s.tree? r := by
  simp [tree?, absorb, Array.getElem?_append, h]

/-! ## The second part -/

/-- A statement of the second store has its parent shifted. -/
theorem parentOf_absorb_right (x : NodeId) :
    (s.absorb other).parentOf (x.shift s.slots.size) =
      (other.parentOf x).map (·.shift s.slots.size) := by
  rw [parentOf, parentOf, get?_absorb_right]
  rcases other.get? x with _ | n <;> rfl

theorem childrenOf_absorb_right (x : NodeId) :
    (s.absorb other).childrenOf (x.shift s.slots.size) =
      (other.childrenOf x).map (·.shift s.slots.size) := by
  rw [childrenOf, childrenOf, get?_absorb_right]
  rcases other.get? x with _ | n <;> rfl

theorem rootOf_absorb_right (x : NodeId) :
    (s.absorb other).rootOf (x.shift s.slots.size) =
      (other.rootOf x).map (·.shift s.trees.size) := by
  rw [rootOf, rootOf, get?_absorb_right]
  rcases other.get? x with _ | n <;> rfl

theorem faceOf_absorb_right (x : NodeId) :
    (s.absorb other).faceOf (x.shift s.slots.size) = other.faceOf x := by
  rw [faceOf, faceOf, get?_absorb_right]
  rcases other.get? x with _ | n <;> rfl

/-- A tree of the second store is shifted. -/
theorem tree?_absorb_right (r : RootId) :
    (s.absorb other).tree? (r.shift s.trees.size) =
      (other.tree? r).map (Tree.shift s.slots.size s.trees.size) := by
  simp only [tree?, absorb, RootId.shift, Array.getElem?_append]
  rw [if_neg (by omega)]
  simp

/-- A tree of the second store has its top shifted. -/
theorem topOf_absorb_right (r : RootId) :
    (s.absorb other).topOf (r.shift s.trees.size) =
      (other.topOf r).map (·.shift s.slots.size) := by
  rw [topOf, topOf, tree?_absorb_right]
  rcases other.tree? r with _ | t <;> rfl

/-- A tree of the second store has its owner shifted. -/
theorem ownerOf_absorb_right (r : RootId) :
    (s.absorb other).ownerOf (r.shift s.trees.size) =
      (other.ownerOf r).map (·.shift s.trees.size) := by
  rw [ownerOf, ownerOf, tree?_absorb_right]
  rcases other.tree? r with _ | t <;> rfl

/-- A tree of the second store has its submodules shifted. -/
theorem submodulesOf_absorb_right (r : RootId) :
    (s.absorb other).submodulesOf (r.shift s.trees.size) =
      (other.submodulesOf r).map (·.shift s.trees.size) := by
  rw [submodulesOf, submodulesOf, tree?_absorb_right]
  rcases other.tree? r with _ | t <;> rfl

/-- The first store's numbers are live as before. -/
theorem contains_absorb_left (h : x.index < s.slots.size) :
    (s.absorb other).contains x = s.contains x := by
  rw [contains, contains, get?_absorb_left h]

/-- The second store's numbers are live as before, shifted. -/
theorem contains_absorb_right (x : NodeId) :
    (s.absorb other).contains (x.shift s.slots.size) = other.contains x := by
  rw [contains, contains, get?_absorb_right, Option.isSome_map]

/-! ## Chains of parents -/

/-- The first store's statements stand below each other as before. -/
theorem below_absorb_left (w : s.Wired) (hx : s.contains x = true) :
    (s.absorb other).Below a x ↔ s.Below a x :=
  below_congr fun _ hy =>
    parentOf_absorb_left (lt_size_of_contains (w.contains_of_below hx hy))

/-- The second store's statements stand below each other as before, shifted. -/
theorem below_absorb_right :
    (s.absorb other).Below (a.shift s.slots.size) (x.shift s.slots.size) ↔ other.Below a x := by
  constructor
  · intro h
    generalize hb : x.shift s.slots.size = b at h
    induction h generalizing x with
    | self => exact NodeId.shift_inj.mp hb ▸ .self
    | @under b p hp _ ih =>
      subst hb
      rw [parentOf_absorb_right, Option.map_eq_some_iff] at hp
      obtain ⟨q, hq, rfl⟩ := hp
      exact .under hq (ih rfl)
  · intro h
    induction h with
    | self => exact .self
    | @under x p hp _ ih =>
      refine .under ?_ ih
      rw [parentOf_absorb_right, hp]
      rfl

/-- The chain of parents of a statement of the first store still ends. -/
theorem grounded_absorb_left (w : s.Wired) (hx : x.index < s.slots.size) :
    (s.absorb other).Grounded x := by
  rcases hlive : s.contains x with _ | _
  · refine .top ?_
    rw [contains, Option.isSome_eq_false_iff, Option.isNone_iff_eq_none] at hlive
    rw [parentOf_absorb_left hx, parentOf, hlive]
    rfl
  · exact (w.grounded x).of_parentOf_eq fun y hy =>
      parentOf_absorb_left (lt_size_of_contains (w.contains_of_below hlive hy))

/-- The chain of parents of a statement of the second store still ends. -/
theorem grounded_absorb_right (hx : other.Grounded x) :
    (s.absorb other).Grounded (x.shift s.slots.size) := by
  induction hx with
  | @top x hnone =>
    refine .top ?_
    rw [parentOf_absorb_right, hnone]
    rfl
  | @under x p hp _ ih =>
    refine .under ?_ ih
    rw [parentOf_absorb_right, hp]
    rfl

/-! ## The invariant -/

/-- Children and parents agree in the merged store. -/
theorem Wired.absorb (w : s.Wired) (w' : other.Wired) : (s.absorb other).Wired := by
  refine ⟨fun p c => ?_, fun p => ?_, fun x => ?_⟩
  · rcases p.lt_or_shift s.slots.size with hp | ⟨p, rfl⟩ <;>
      rcases c.lt_or_shift s.slots.size with hc | ⟨c, rfl⟩
    · rw [childrenOf_absorb_left hp, parentOf_absorb_left hc]
      exact w.mem_children p c
    · -- no statement of the first part has a child in the second one
      rw [childrenOf_absorb_left hp, parentOf_absorb_right]
      constructor
      · intro h
        exact absurd (lt_size_of_contains (w.contains_child h)) NodeId.not_shift_lt
      · intro h
        obtain ⟨q, _, rfl⟩ := Option.map_eq_some_iff.mp h
        exact absurd hp NodeId.not_shift_lt
    · rw [childrenOf_absorb_right, parentOf_absorb_left hc]
      constructor
      · intro h
        obtain ⟨q, _, rfl⟩ := List.mem_map.mp h
        exact absurd hc NodeId.not_shift_lt
      · intro h
        exact absurd (lt_size_of_contains (w.contains_parent h)) NodeId.not_shift_lt
    · rw [childrenOf_absorb_right, parentOf_absorb_right, List.mem_map,
        Option.map_eq_some_iff]
      constructor
      · rintro ⟨q, hq, heq⟩
        rw [NodeId.shift_inj] at heq
        subst heq
        exact ⟨p, w'.parentOf_of_mem hq, rfl⟩
      · rintro ⟨q, hq, heq⟩
        rw [NodeId.shift_inj] at heq
        subst heq
        exact ⟨c, w'.mem_of_parentOf hq, rfl⟩
  · rcases p.lt_or_shift s.slots.size with hp | ⟨p, rfl⟩
    · rw [childrenOf_absorb_left hp]
      exact w.nodup_children p
    · rw [childrenOf_absorb_right]
      exact (w'.nodup_children p).map fun _ _ h => NodeId.shift_inj.mp h
  · rcases x.lt_or_shift s.slots.size with hx | ⟨x, rfl⟩
    · exact grounded_absorb_left w hx
    · exact grounded_absorb_right (w'.grounded x)

/-- Children and tops stand in the right trees of the merged store. -/
theorem Rooted.absorb (o : s.Owned) (o' : other.Owned) : (s.absorb other).Rooted := by
  refine ⟨fun c p h => ?_, fun r x h => ?_, fun r x h => ?_⟩
  · rcases c.lt_or_shift s.slots.size with hc | ⟨c, rfl⟩
    · rw [parentOf_absorb_left hc] at h
      rw [rootOf_absorb_left hc,
        rootOf_absorb_left (lt_size_of_contains (o.wired.contains_parent h))]
      exact o.rooted.rootOf_child c p h
    · rw [parentOf_absorb_right, Option.map_eq_some_iff] at h
      obtain ⟨q, hq, rfl⟩ := h
      rw [rootOf_absorb_right, rootOf_absorb_right, o'.rooted.rootOf_child c q hq]
  all_goals rcases r.lt_or_shift s.trees.size with hr | ⟨r, rfl⟩
  · rw [topOf, tree?_absorb_left hr] at h
    have hroot := o.rooted.rootOf_top r x h
    rw [rootOf_absorb_left (lt_size_of_contains (contains_of_rootOf hroot)), hroot]
  · rw [topOf_absorb_right, Option.map_eq_some_iff] at h
    obtain ⟨y, hy, rfl⟩ := h
    rw [rootOf_absorb_right, o'.rooted.rootOf_top r y hy]
    rfl
  · rw [topOf, tree?_absorb_left hr] at h
    have hroot := o.rooted.rootOf_top r x h
    rw [parentOf_absorb_left (lt_size_of_contains (contains_of_rootOf hroot))]
    exact o.rooted.parentOf_top r x h
  · rw [topOf_absorb_right, Option.map_eq_some_iff] at h
    obtain ⟨y, hy, rfl⟩ := h
    rw [parentOf_absorb_right, o'.rooted.parentOf_top r y hy]
    rfl

/-- A tree that is found has a number in front of the last one. -/
theorem lt_size_of_tree? {t : Tree} (h : s.tree? r = some t) : r.index < s.trees.size := by
  by_contra hge
  rw [tree?, Array.getElem?_eq_none (by omega)] at h
  cases h

/-- A tree with an owner has a number in front of the last one. -/
theorem lt_size_of_ownerOf {q : RootId} (h : s.ownerOf r = some q) :
    r.index < s.trees.size := by
  rw [ownerOf, Option.bind_eq_some_iff] at h
  obtain ⟨t, ht, _⟩ := h
  exact lt_size_of_tree? ht

/-- A tree with submodules has a number in front of the last one. -/
theorem lt_size_of_mem_submodulesOf {q : RootId} (h : q ∈ s.submodulesOf r) :
    r.index < s.trees.size := by
  rw [submodulesOf] at h
  split at h
  · next t ht => exact lt_size_of_tree? ht
  · cases h

/-- Submodules and owners agree in the merged store. -/
theorem Affiliated.absorb (ha : s.Affiliated) (ha' : other.Affiliated) :
    (s.absorb other).Affiliated := by
  have hownerLeft : ∀ r : RootId, r.index < s.trees.size →
      (s.absorb other).ownerOf r = s.ownerOf r := by
    intro r hr
    rw [ownerOf, ownerOf, tree?_absorb_left hr]
  have hsubLeft : ∀ r : RootId, r.index < s.trees.size →
      (s.absorb other).submodulesOf r = s.submodulesOf r := by
    intro r hr
    rw [submodulesOf, submodulesOf, tree?_absorb_left hr]
  refine ⟨fun r q => ?_, fun r => ?_, fun r => ?_⟩
  · rcases r.lt_or_shift s.trees.size with hr | ⟨r, rfl⟩ <;>
      rcases q.lt_or_shift s.trees.size with hq | ⟨q, rfl⟩
    · rw [hsubLeft r hr, hownerLeft q hq]
      exact ha.mem_submodules r q
    · rw [hsubLeft r hr, ownerOf_absorb_right]
      constructor
      · intro h
        exact absurd (lt_size_of_ownerOf ((ha.mem_submodules r _).mp h)) RootId.not_shift_lt
      · intro h
        obtain ⟨p, _, rfl⟩ := Option.map_eq_some_iff.mp h
        exact absurd hr RootId.not_shift_lt
    · rw [submodulesOf_absorb_right, hownerLeft q hq]
      constructor
      · intro h
        obtain ⟨p, _, rfl⟩ := List.mem_map.mp h
        exact absurd hq RootId.not_shift_lt
      · intro h
        exact absurd (lt_size_of_mem_submodulesOf ((ha.mem_submodules _ q).mpr h))
          RootId.not_shift_lt
    · rw [submodulesOf_absorb_right, ownerOf_absorb_right, List.mem_map,
        Option.map_eq_some_iff]
      constructor
      · rintro ⟨p, hp, heq⟩
        rw [RootId.shift_inj] at heq
        subst heq
        exact ⟨r, (ha'.mem_submodules r p).mp hp, rfl⟩
      · rintro ⟨p, hp, heq⟩
        rw [RootId.shift_inj] at heq
        subst heq
        exact ⟨q, (ha'.mem_submodules p q).mpr hp, rfl⟩
  · rcases r.lt_or_shift s.trees.size with hr | ⟨r, rfl⟩
    · rw [hsubLeft r hr]
      exact ha.nodup_submodules r
    · rw [submodulesOf_absorb_right]
      exact (ha'.nodup_submodules r).map fun _ _ h => RootId.shift_inj.mp h
  · rcases r.lt_or_shift s.trees.size with hr | ⟨r, rfl⟩
    · rw [hownerLeft r hr]
      exact ha.ownerOf_ne_self r
    · rw [ownerOf_absorb_right]
      intro h
      obtain ⟨q, hq, heq⟩ := Option.map_eq_some_iff.mp h
      rw [RootId.shift_inj] at heq
      subst heq
      exact ha'.ownerOf_ne_self q hq

/-- Merging two stores keeps the invariant. -/
theorem Owned.absorb (o : s.Owned) (o' : other.Owned) : (s.absorb other).Owned where
  wired := o.wired.absorb o'.wired
  rooted := Rooted.absorb o o'
  affiliated := o.affiliated.absorb o'.affiliated

end Store
end StatementForest
