import StatementForest.Proofs.Store.AddChildEffect

/-!
# Making one statement

Making a statement for an element has three ends.  An element that is no statement is
rejected, and the store stays as it was.  A statement that is made takes the next slot, becomes
the last child of its parent, and nothing else changes.

The third end is a failure.  The slot is taken before the parent is looked up, so a number
without a statement for the parent leaves a statement behind that nothing refers to.

Main results:

- Theorems `StoreM.instantiate_none_created`, `StoreM.instantiate_some_created`: which store
  comes of a statement that is made.
- Theorem `StoreM.instantiate_some_of_not_contains`: which store a failure leaves behind.
- Theorem `StoreM.instantiate_ends`: there is no other end.
-/

namespace StatementForest
namespace Store

open StoreM (freshNode not_below_fresh)

variable {s t : Store} {e : Element} {r : Resolution} {parent x : NodeId}
  {parent? : Option NodeId} {root : RootId}

/-! ## A new statement -/

/-- The tree that a new statement enters: that of its parent, if it gets one. -/
def rootBelow (s : Store) (parent? : Option NodeId) (root : RootId) : Option RootId :=
  match parent? with
  | some parent => s.rootOf parent
  | none => some root

/-- The second store is the first one with a statement made for an element.  The new
statement has no children, and only its parent tells of it. -/
structure Made (s t : Store) (e : Element) (r : Resolution) (parent? : Option NodeId)
    (root : RootId) : Prop where
  size : t.slots.size = s.slots.size + 1
  trees : t.trees = s.trees
  made : ∃ own, s.rootBelow parent? root = some own ∧
    t.get? s.fresh = some { freshNode e r own with parent := parent? }
  vacant : ∀ x, x ≠ s.fresh → s.get? x = none → t.get? x = none
  stayed : ∀ x n, s.get? x = some n → t.get? x = some
    { n with children := if parent? = some x then n.children ++ [s.fresh] else n.children }

namespace Made

/-- The parent lists the new statement last, and all other statements keep their children. -/
theorem childrenOf (h : Made s t e r parent? root) (hx : s.contains x = true) :
    t.childrenOf x =
      if parent? = some x then s.childrenOf x ++ [s.fresh] else s.childrenOf x := by
  obtain ⟨n, hn⟩ := contains_iff.mp hx
  rw [childrenOf_of_get? (h.stayed x n hn), childrenOf_of_get? hn]

/-- The new statement is the only one. -/
theorem eq_fresh (h : Made s t e r parent? root) (hx : t.contains x = true)
    (hnew : s.contains x = false) : x = s.fresh := by
  by_contra hne
  rw [contains, Option.isSome_eq_false_iff, Option.isNone_iff_eq_none] at hnew
  simp [contains, h.vacant x hne hnew] at hx

end Made

/-- Making a statement adds a slot. -/
theorem size_alloc (s : Store) (n : Node) : (s.alloc n).2.slots.size = s.slots.size + 1 := by
  simp [alloc]

/-- A statement on its own. -/
theorem made_alloc (s : Store) (e : Element) (r : Resolution) (root : RootId) :
    Made s (s.alloc (freshNode e r root)).2 e r none root where
  size := size_alloc s _
  trees := rfl
  made := ⟨root, rfl, get?_alloc_fresh s _⟩
  vacant x hx hn := by rw [get?_alloc_of_ne s _ hx, hn]
  stayed x n hn := by
    rw [get?_alloc_of_ne s _ (ne_fresh_of_contains (contains_iff.mpr ⟨n, hn⟩)), hn]
    rfl

/-- A new statement becomes the last child of its parent, and no other list of children
changes. -/
theorem childrenOnceAttached_fresh (o : s.Owned) {n m : Node} (hm : m.parent = none)
    (hn : s.get? x = some n) :
    (s.alloc m).2.childrenOnceAttached parent s.fresh none x =
      if some parent = some x then n.children ++ [s.fresh] else n.children := by
  have hparentOf : (s.alloc m).2.parentOf s.fresh = none := by
    rw [parentOf_of_get? (get?_alloc_fresh s m), hm]
  have hne := ne_fresh_of_contains (contains_iff.mpr ⟨n, hn⟩)
  have hchildren : (s.alloc m).2.childrenOf x = n.children := by
    rw [childrenOf_alloc_of_ne m hne, childrenOf_of_get? hn]
  have hfresh : s.fresh ∉ n.children := by
    rw [← childrenOf_of_get? hn]
    exact fun hmem => ne_fresh_of_contains (o.wired.contains_child hmem) rfl
  unfold childrenOnceAttached
  by_cases hparent : x = parent
  · rw [if_pos hparent, ← hparent, if_pos rfl, hchildren, List.erase_of_not_mem hfresh,
      placeChild]
  · rw [if_neg hparent, hparentOf, if_neg (by simp), hchildren,
      if_neg fun h => hparent (Option.some.inj h).symm]

/-- A new statement that has been attached to a live one. -/
theorem Attached.made (o : s.Owned) (hparent : s.contains parent = true)
    (h : Attached (s.alloc (freshNode e r root)).2 t parent s.fresh none) :
    Made s t e r (some parent) root where
  size := h.size.trans (size_alloc s _)
  trees := h.trees
  made := by
    obtain ⟨own, hown, hself⟩ := h.moved s.fresh _ (get?_alloc_fresh s _) .self
    rw [rootOf_alloc_of_ne _ (ne_fresh_of_contains hparent)] at hown
    rw [if_pos rfl] at hself
    exact ⟨own, hown, hself⟩
  vacant x hx hn := h.vacant x (by rw [get?_alloc_of_ne s _ hx, hn])
  stayed x n hn := by
    have hx := contains_iff.mpr ⟨n, hn⟩
    have hnew : (s.alloc (freshNode e r root)).2.get? x = some n := by
      rw [get?_alloc_of_ne s _ (ne_fresh_of_contains hx), hn]
    rw [h.stayed x n hnew (not_below_fresh o hx _), childrenOnceAttached_fresh o rfl hn]

end Store

namespace StoreM

open Store

variable {s : Store} {suppliers : Suppliers} {e : Element} {r : Resolution} {parent : NodeId}

/-! ## The three ends -/

/-- Without a parent the new statement is made. -/
theorem instantiate_none_created (h : suppliers.resolveElement e = .ok r) (root : RootId) :
    ∃ t, instantiate suppliers e none root s = (.ok (.created s.fresh), t) ∧
      Made s t e r none root :=
  ⟨_, instantiate_none_apply h, made_alloc s e r root⟩

/-- Below a live parent the new statement is made and listed. -/
theorem instantiate_some_created (o : s.Owned) (hparent : s.contains parent = true)
    (h : suppliers.resolveElement e = .ok r) (root : RootId) :
    ∃ t, instantiate suppliers e (some parent) root s = (.ok (.created s.fresh), t) ∧
      Made s t e r (some parent) root := by
  have onew : (s.alloc (freshNode e r root)).2.Owned := o.alloc rfl rfl
  obtain ⟨_, t, hrun, ht⟩ := (addChild_attaches onew
    (attachable_fresh o hparent (freshNode e r root)) none).exists_result
  refine ⟨t, ?_, ht.made o hparent⟩
  rw [instantiate_some_apply h, bind_apply, appendChild, hrun]
  rfl

/-- The failure of making a statement below a number without one.  The number may be that of
the new statement. -/
def refusal (s : Store) (parent : NodeId) : Failure :=
  if parent = s.fresh then .invalidMutation (.underOwnDescendant parent parent)
  else .nodeNotFound parent

/-- Below a number without one the new statement is refused. -/
theorem checkAttach_alloc (o : s.Owned) (hparent : s.contains parent = false) {n : Node}
    (hnone : n.parent = none) (hempty : n.children = []) :
    (s.alloc n).2.checkAttach parent s.fresh = .error (refusal s parent) := by
  have hnew := get?_alloc_fresh s n
  unfold refusal
  split
  · next heq =>
    subst heq
    have hcontains := contains_iff.mpr ⟨n, hnew⟩
    have habove := ((o.alloc hnone hempty).wired.isAncestorOrSelf_iff hcontains).mpr .self
    simp [checkAttach, node_of_get? hnew, habove, bind, Except.bind, throw, throwThe,
      MonadExceptOf.throw]
  · next hne =>
    have hstale : (s.alloc n).2.contains parent = false := by
      rw [contains, get?_alloc_of_ne s n hne, ← contains, hparent]
    simp [checkAttach, node_of_not_contains hstale, bind, Except.bind]

/-- The statement that could not be put below its parent stays in the store. -/
theorem instantiate_some_of_not_contains (o : s.Owned) (hparent : s.contains parent = false)
    (h : suppliers.resolveElement e = .ok r) (root : RootId) :
    instantiate suppliers e (some parent) root s =
      (.error (refusal s parent), (s.alloc (freshNode e r root)).2) := by
  have hcheck : (s.alloc (freshNode e r root)).2.checkAttach parent s.fresh =
      .error (refusal s parent) := checkAttach_alloc o hparent rfl rfl
  rw [instantiate_some_apply h, appendChild, bind_apply, addChild_of_error hcheck]

/-- A statement that was made is new, and nothing else has changed. -/
theorem made_of_instantiate_eq {t : Store} {parent? : Option NodeId} {root : RootId} {id : NodeId}
    (o : s.Owned) (h : instantiate suppliers e parent? root s = (.ok (.created id), t)) :
    id = s.fresh ∧ ∃ r, suppliers.resolveElement e = .ok r ∧ Made s t e r parent? root := by
  rcases hr : suppliers.resolveElement e with finding | r
  · rw [instantiate_of_error hr] at h
    cases h
  rcases parent? with _ | parent
  · obtain ⟨u, hrun, hu⟩ := instantiate_none_created (s := s) hr root
    rw [hrun] at h
    cases h
    exact ⟨rfl, r, rfl, hu⟩
  rcases hparent : s.contains parent with _ | _
  · rw [instantiate_some_of_not_contains o hparent hr] at h
    cases h
  · obtain ⟨u, hrun, hu⟩ := instantiate_some_created o hparent hr root
    rw [hrun] at h
    cases h
    exact ⟨rfl, r, rfl, hu⟩

/-- Making a statement rejects the element and changes nothing, or makes a statement below a
live parent or on its own and changes nothing else, or fails at a number without a statement
and leaves a new statement without a parent behind. -/
theorem instantiate_ends (o : s.Owned) (suppliers : Suppliers) (e : Element)
    (parent? : Option NodeId) (root : RootId) :
    (∃ finding, suppliers.resolveElement e = .error finding ∧
        instantiate suppliers e parent? root s = (.ok (.rejected finding), s)) ∨
      (∃ r t, suppliers.resolveElement e = .ok r ∧
        (∀ parent ∈ parent?, s.contains parent = true) ∧
        instantiate suppliers e parent? root s = (.ok (.created s.fresh), t) ∧
        Made s t e r parent? root) ∨
      ∃ r t parent, suppliers.resolveElement e = .ok r ∧ parent? = some parent ∧
        s.contains parent = false ∧
        instantiate suppliers e parent? root s = (.error (refusal s parent), t) ∧
        Made s t e r none root := by
  rcases h : suppliers.resolveElement e with finding | r
  · exact .inl ⟨finding, rfl, instantiate_of_error h parent?⟩
  refine .inr ?_
  rcases parent? with _ | parent
  · obtain ⟨t, hrun, ht⟩ := instantiate_none_created (s := s) h root
    exact .inl ⟨r, t, rfl, nofun, hrun, ht⟩
  rcases hparent : s.contains parent with _ | _
  · exact .inr ⟨r, _, parent, rfl, rfl, hparent,
      instantiate_some_of_not_contains o hparent h root, made_alloc s e r root⟩
  · obtain ⟨t, hrun, ht⟩ := instantiate_some_created o hparent h root
    refine .inl ⟨r, t, rfl, ?_, hrun, ht⟩
    rintro _ ⟨⟩
    exact hparent

/-- The element stands for a leaf. -/
theorem resolveElement_sampleNode :
    Suppliers.resolveElement {} (sampleNode .leaf).element =
      .ok ⟨Key.core "leaf", .core .leaf⟩ := by rfl

/-- Another leaf is made below the module of the sample. -/
theorem instantiate_ends_sample :
    Store.sample.Owned ∧ ∃ r t,
      instantiate {} (sampleNode .leaf).element (some ⟨0⟩) ⟨0⟩ Store.sample =
        (.ok (.created Store.sample.fresh), t) ∧
      Made Store.sample t (sampleNode .leaf).element r (some ⟨0⟩) ⟨0⟩ := by
  refine ⟨Store.sample_owned, ?_⟩
  obtain ⟨finding, hresolve, -⟩ | ⟨r, t, -, -, hrun, ht⟩ | ⟨r, t, parent, -, hparent, hstale, -⟩ :=
    instantiate_ends Store.sample_owned {} (sampleNode .leaf).element (some ⟨0⟩) ⟨0⟩
  · rw [resolveElement_sampleNode] at hresolve
    cases hresolve
  · exact ⟨r, t, hrun, ht⟩
  · obtain rfl : ⟨0⟩ = parent := Option.some.inj hparent
    have hlive : Store.sample.contains ⟨0⟩ = true := by decide +kernel
    rw [hstale] at hlive
    cases hlive

/-- No statement of the sample has the number of the parent.  The failure takes a slot. -/
theorem instantiate_stale_parent_sample :
    Store.sample.Owned ∧ Store.sample.contains ⟨9⟩ = false ∧ ∃ t,
      instantiate {} (sampleNode .leaf).element (some ⟨9⟩) ⟨0⟩ Store.sample =
        (.error (.nodeNotFound ⟨9⟩), t) ∧
      t.contains ⟨3⟩ = true ∧ Store.sample.contains ⟨3⟩ = false := by
  have hstale : Store.sample.contains ⟨9⟩ = false := by decide +kernel
  have hrun := instantiate_some_of_not_contains Store.sample_owned hstale
    resolveElement_sampleNode ⟨0⟩
  rw [refusal, if_neg (by decide +kernel)] at hrun
  exact ⟨Store.sample_owned, hstale, _, hrun, by decide +kernel, by decide +kernel⟩

end StoreM
end StatementForest
