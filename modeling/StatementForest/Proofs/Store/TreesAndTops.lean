import StatementForest.Proofs.Store.NewStatements
import StatementForest.Store.Submodule

/-!
# Trees and their tops

Trees are only ever added.  A tree gets a detached statement as its top, and the
owner of a submodule can change; neither touches a link between statements.

Main results:

- Theorem `Store.Owned.addTree`: a new tree keeps the invariant.
- Theorem `StoreM.setTop_succeeds`: so does a new top.
- Theorem `StoreM.linkSubmodule_outcome`: linking a submodule to a module fails
  without any change, or keeps the invariant.
-/

namespace StatementForest

/-- What a tree is, apart from the submodules and the owner it is linked to. -/
def Tree.face (t : Tree) : Option String × Option NodeId × Conformance :=
  (t.source, t.top, t.conformance)

namespace Store

variable {s t : Store}

/-! ## Changes of trees -/

/-- Changing a tree changes what is found under its number, and nothing else. -/
theorem tree?_updateTree (s : Store) (id : RootId) (f : Tree → Tree) (r : RootId) :
    (s.updateTree id f).tree? r = if r = id then (s.tree? r).map f else s.tree? r := by
  simp only [tree?, updateTree, Array.getElem?_modify]
  by_cases h : r = id
  · subst h
    simp
  · have hne : id.index ≠ r.index := by
      intro heq
      apply h
      cases id
      cases r
      exact congrArg RootId.mk heq.symm
    simp [h, hne]

section UpdateTree

variable {id r : RootId} {f : Tree → Tree} {tree : Tree}

/-- The changed tree is found under its number. -/
theorem tree?_updateTree_self (h : s.tree? id = some tree) :
    (s.updateTree id f).tree? id = some (f tree) := by
  rw [tree?_updateTree, if_pos rfl, h]
  rfl

/-- The other trees stay as they are. -/
theorem tree?_updateTree_of_ne (h : r ≠ id) : (s.updateTree id f).tree? r = s.tree? r := by
  rw [tree?_updateTree, if_neg h]

/-- What an update of a tree keeps is kept for all trees. -/
theorem map_tree?_updateTree {β : Type} {g : Tree → β} (hf : ∀ t, g (f t) = g t)
    (id r : RootId) : ((s.updateTree id f).tree? r).map g = (s.tree? r).map g := by
  rw [tree?_updateTree]
  split
  · rcases s.tree? r with _ | tree
    · rfl
    · simp [hf tree]
  · rfl

/-- The top is read off the tree. -/
theorem topOf_eq (s : Store) (r : RootId) : s.topOf r = ((s.tree? r).map Tree.top).join := by
  rw [topOf]
  rcases s.tree? r with _ | tree <;> rfl

theorem ownerOf_eq (s : Store) (r : RootId) :
    s.ownerOf r = ((s.tree? r).map Tree.owner).join := by
  rw [ownerOf]
  rcases s.tree? r with _ | tree <;> rfl

theorem submodulesOf_eq (s : Store) (r : RootId) :
    s.submodulesOf r = ((s.tree? r).map Tree.submodules).getD [] := by
  rw [submodulesOf]
  rcases s.tree? r with _ | tree <;> rfl

/-- A change that keeps the owner of a tree keeps all owners. -/
theorem ownerOf_updateTree (hf : ∀ t, (f t).owner = t.owner) (id r : RootId) :
    (s.updateTree id f).ownerOf r = s.ownerOf r := by
  rw [ownerOf_eq, ownerOf_eq, map_tree?_updateTree hf]

theorem submodulesOf_updateTree (hf : ∀ t, (f t).submodules = t.submodules) (id r : RootId) :
    (s.updateTree id f).submodulesOf r = s.submodulesOf r := by
  rw [submodulesOf_eq, submodulesOf_eq, map_tree?_updateTree hf]

theorem submodulesOf_of_tree? (h : s.tree? id = some tree) :
    s.submodulesOf id = tree.submodules := by
  rw [submodulesOf, h]

theorem submodulesOf_updateTree_of_ne (h : r ≠ id) :
    (s.updateTree id f).submodulesOf r = s.submodulesOf r := by
  rw [submodulesOf, submodulesOf, tree?_updateTree_of_ne h]

end UpdateTree

/-- A new tree leaves the others as they are. -/
theorem tree?_addTree_of_ne (s : Store) (source : Option String) (conformance : Conformance)
    {r : RootId} (h : r ≠ (s.addTree source conformance).1) :
    (s.addTree source conformance).2.tree? r = s.tree? r := by
  have hne : r.index ≠ s.trees.size := by
    intro heq
    apply h
    cases r
    exact congrArg RootId.mk heq
  simp [tree?, addTree, Array.getElem?_push, hne]

/-- A new tree is found under its number. -/
theorem tree?_addTree_self (s : Store) (source : Option String) (conformance : Conformance) :
    (s.addTree source conformance).2.tree? (s.addTree source conformance).1 =
      some { source, conformance } := by
  simp [tree?, addTree]

/-- The number of a new tree is not in use. -/
theorem tree?_addTree_fst (s : Store) (source : Option String) (conformance : Conformance) :
    s.tree? (s.addTree source conformance).1 = none := by
  simp [tree?, addTree]

/-- Statements that stand as before satisfy their part of the invariant, whatever
happens to the trees. -/
theorem Wired.of_slots_eq (w : s.Wired) (h : t.slots = s.slots) : t.Wired := by
  have hget : ∀ x, t.get? x = s.get? x := fun x => by rw [get?, get?, h]
  refine w.congr (fun x => ?_) fun x => ?_
  · rw [parentOf, parentOf, hget]
  · rw [childrenOf, childrenOf, hget]

/-- The same statements below the same tops satisfy the invariant. -/
theorem Rooted.of_slots_eq (hr : s.Rooted) (h : t.slots = s.slots)
    (htop : ∀ r x, t.topOf r = some x → s.rootOf x = some r ∧ s.parentOf x = none) :
    t.Rooted := by
  have hget : ∀ x, t.get? x = s.get? x := fun x => by rw [get?, get?, h]
  have hparentOf : ∀ x, t.parentOf x = s.parentOf x := fun x => by
    rw [parentOf, parentOf, hget]
  have hrootOf : ∀ x, t.rootOf x = s.rootOf x := fun x => by rw [rootOf, rootOf, hget]
  constructor
  · intro c p hp
    rw [hparentOf] at hp
    rw [hrootOf, hrootOf]
    exact hr.rootOf_child c p hp
  · intro r x hx
    rw [hrootOf]
    exact (htop r x hx).1
  · intro r x hx
    rw [hparentOf]
    exact (htop r x hx).2

/-- Submodules and owners agree in a store with the same ones. -/
theorem Affiliated.congr (ha : s.Affiliated) (howner : ∀ r, t.ownerOf r = s.ownerOf r)
    (hsub : ∀ r, t.submodulesOf r = s.submodulesOf r) : t.Affiliated where
  mem_submodules r q := by rw [howner, hsub]; exact ha.mem_submodules r q
  nodup_submodules r := by rw [hsub]; exact ha.nodup_submodules r
  ownerOf_ne_self r := by rw [howner]; exact ha.ownerOf_ne_self r

/-- A new tree has no statements yet. -/
theorem Owned.addTree (o : s.Owned) (source : Option String) (conformance : Conformance) :
    (s.addTree source conformance).2.Owned := by
  have hother := fun r => tree?_addTree_of_ne s source conformance (r := r)
  have hself := tree?_addTree_self s source conformance
  have hnone := tree?_addTree_fst s source conformance
  refine ⟨o.wired.of_slots_eq rfl, o.rooted.of_slots_eq rfl ?_, o.affiliated.congr ?_ ?_⟩
  · intro r x hx
    by_cases hr : r = (s.addTree source conformance).1
    · rw [hr, topOf, hself] at hx
      cases hx
    · rw [topOf, hother r hr] at hx
      exact ⟨o.rooted.rootOf_top r x hx, o.rooted.parentOf_top r x hx⟩
  · intro r
    by_cases hr : r = (s.addTree source conformance).1
    · rw [hr, ownerOf, ownerOf, hself, hnone]
      rfl
    · rw [ownerOf, ownerOf, hother r hr]
  · intro r
    by_cases hr : r = (s.addTree source conformance).1
    · rw [hr, submodulesOf, submodulesOf, hself, hnone]
    · rw [submodulesOf, submodulesOf, hother r hr]

/-! ## Owners of submodules -/

section Affiliation

variable {owner submodule : RootId}

/-- A submodule leaves its owner and joins another one. -/
theorem Affiliated.relink (ha : s.Affiliated) (hne : owner ≠ submodule)
    (howner : ∀ q, t.ownerOf q = if q = submodule then some owner else s.ownerOf q)
    (hsub : ∀ r, t.submodulesOf r =
      if r = owner then
        if submodule ∈ s.submodulesOf r then s.submodulesOf r
        else s.submodulesOf r ++ [submodule]
      else (s.submodulesOf r).filter (· ≠ submodule)) : t.Affiliated := by
  constructor
  · intro r q
    rw [howner, hsub]
    by_cases hr : r = owner
    · subst hr
      rw [if_pos rfl]
      by_cases hq : q = submodule
      · subst hq
        by_cases hmem : q ∈ s.submodulesOf r <;> simp [hmem]
      · rw [if_neg hq, ← ha.mem_submodules]
        by_cases hmem : submodule ∈ s.submodulesOf r <;> simp [hmem, hq]
    · rw [if_neg hr, List.mem_filter, ha.mem_submodules]
      by_cases hq : q = submodule
      · simp [hq, Ne.symm hr]
      · simp [hq]
  · intro r
    rw [hsub]
    have hnodup := ha.nodup_submodules r
    by_cases hr : r = owner
    · rw [if_pos hr]
      by_cases hmem : submodule ∈ s.submodulesOf r
      · rw [if_pos hmem]
        exact hnodup
      · rw [if_neg hmem, ← List.concat_eq_append, List.nodup_concat]
        exact ⟨hmem, hnodup⟩
    · rw [if_neg hr]
      exact hnodup.filter _
  · intro r
    rw [howner]
    by_cases hr : r = submodule
    · rw [if_pos hr]
      intro h
      exact hne ((Option.some.inj h).trans hr)
    · rw [if_neg hr]
      exact ha.ownerOf_ne_self r

end Affiliation
end Store

namespace StoreM

open Store

variable {s : Store} {root owner submodule : RootId} {top : NodeId}

/-! ## Tops -/

/-- Setting the top of a tree that is not there fails. -/
theorem setTop_of_none (h : s.tree? root = none) (top : NodeId) :
    setTop root top s = (.error (.rootNotFound root), s) := by
  rw [setTop, updateTree, bind_apply, tree_apply_of_none h]

/-- A detached statement becomes the top of the tree that it names. -/
theorem setTop_succeeds (o : s.Owned) {tree : Tree} (h : s.tree? root = some tree)
    (hroot : s.rootOf top = some root) (hnone : s.parentOf top = none) :
    Succeeds (setTop root top) s fun _ t =>
      t.Owned ∧ t = s.updateTree root fun t => { t with top := some top } := by
  refine Yields.of_eq (updateTree_apply h _) ⟨?_, rfl⟩
  have htree := tree?_updateTree s root fun t => { t with top := some top }
  refine ⟨o.wired.of_slots_eq rfl, o.rooted.of_slots_eq rfl ?_, o.affiliated.congr ?_ ?_⟩
  · intro r x hx
    by_cases hr : r = root
    · rw [hr, topOf, tree?_updateTree_self h] at hx
      cases hx
      exact ⟨hr ▸ hroot, hnone⟩
    · rw [topOf, tree?_updateTree_of_ne hr] at hx
      exact ⟨o.rooted.rootOf_top r x hx, o.rooted.parentOf_top r x hx⟩
  · exact fun r => ownerOf_updateTree (by intro t; rfl) root r
  · exact fun r => submodulesOf_updateTree (by intro t; rfl) root r

/-! ## Submodules -/

/-- The trees after a submodule has got its new owner and has left the old one. -/
structure Orphaned (s u : Store) (owner submodule : RootId) : Prop where
  slots : u.slots = s.slots
  face : ∀ r, (u.tree? r).map Tree.face = (s.tree? r).map Tree.face
  ownerOf : ∀ q, u.ownerOf q = if q = submodule then some owner else s.ownerOf q
  submodulesOf : ∀ r, u.submodulesOf r =
    if r = owner then s.submodulesOf r else (s.submodulesOf r).filter (· ≠ submodule)

/-- A tree that does not own a submodule does not list it. -/
theorem filter_submodulesOf (ha : s.Affiliated) {r : RootId}
    (h : s.ownerOf submodule ≠ some r) :
    (s.submodulesOf r).filter (· ≠ submodule) = s.submodulesOf r := by
  rw [List.filter_eq_self]
  intro q hq
  rw [decide_eq_true_eq]
  rintro rfl
  exact h ((ha.mem_submodules r q).mp hq)

/-- The new owner is written into the submodule. -/
theorem ownerOf_assignOwner {tree : Tree} (h : s.tree? submodule = some tree) (q : RootId) :
    (s.updateTree submodule fun t => { t with owner := some owner }).ownerOf q =
      if q = submodule then some owner else s.ownerOf q := by
  by_cases hq : q = submodule
  · rw [if_pos hq, hq, Store.ownerOf, tree?_updateTree_self h]
    rfl
  · rw [if_neg hq, Store.ownerOf, Store.ownerOf, tree?_updateTree_of_ne hq]

/-- The new owner lists the submodule, and the invariant holds. -/
theorem Orphaned.join {u : Store} (h : Orphaned s u owner submodule) (o : s.Owned)
    (hne : owner ≠ submodule) {tree : Tree} (howner : s.tree? owner = some tree) :
    Succeeds (updateTree owner fun t =>
        if submodule ∈ t.submodules then t
        else { t with submodules := t.submodules ++ [submodule] }) u fun _ t =>
      t.Owned ∧ t.slots = s.slots ∧
        ∀ r, (t.tree? r).map Tree.face = (s.tree? r).map Tree.face := by
  have hsome : ((u.tree? owner).map Tree.face).isSome = true := by
    rw [h.face, howner]
    rfl
  rw [Option.isSome_map] at hsome
  obtain ⟨tree', htree'⟩ := Option.isSome_iff_exists.mp hsome
  have hface : ∀ r, ((u.updateTree owner fun t =>
      if submodule ∈ t.submodules then t
      else { t with submodules := t.submodules ++ [submodule] }).tree? r).map Tree.face =
        (s.tree? r).map Tree.face := by
    intro r
    rw [map_tree?_updateTree (by intro t; split <;> rfl), h.face]
  refine Yields.of_eq (updateTree_apply htree' _) ⟨⟨?_, ?_, ?_⟩, h.slots, hface⟩
  · exact o.wired.of_slots_eq h.slots
  · refine o.rooted.of_slots_eq h.slots fun r x hx => ?_
    have htop : s.topOf r = some x := by
      rw [topOf_eq] at hx ⊢
      have hr := congrArg (Option.map fun p => p.2.1) (hface r)
      rw [Option.map_map, Option.map_map] at hr
      rw [← hx]
      exact congrArg Option.join hr.symm
    exact ⟨o.rooted.rootOf_top r x htop, o.rooted.parentOf_top r x htop⟩
  · refine o.affiliated.relink hne (fun q => ?_) fun r => ?_
    · rw [ownerOf_updateTree (by intro t; split <;> rfl), h.ownerOf]
    · by_cases hr : r = owner
      · have hlist := h.submodulesOf owner
        rw [if_pos rfl, submodulesOf_of_tree? htree'] at hlist
        rw [if_pos hr, hr, submodulesOf_of_tree? (tree?_updateTree_self htree'), ← hlist]
        split <;> rfl
      · rw [if_neg hr, submodulesOf_updateTree_of_ne hr, h.submodulesOf, if_neg hr]

/-- The submodule gets its new owner and leaves the old one, if that is another tree. -/
theorem Orphaned.leave (ha : s.Affiliated) {previous : RootId} (hne : previous ≠ owner)
    (howner : s.ownerOf submodule = some previous) {u : Store} (hslots : u.slots = s.slots)
    (hface : ∀ r, (u.tree? r).map Tree.face = (s.tree? r).map Tree.face)
    (hownerOf : ∀ q, u.ownerOf q = if q = submodule then some owner else s.ownerOf q)
    (hsub : ∀ r, u.submodulesOf r = s.submodulesOf r) :
    Succeeds (updateTree previous fun t =>
        { t with submodules := t.submodules.filter (· ≠ submodule) }) u fun _ t =>
      Orphaned s t owner submodule := by
  have hmem : submodule ∈ u.submodulesOf previous := by
    rw [hsub]
    exact (ha.mem_submodules previous submodule).mpr howner
  -- the tree exists, because only a tree lists a submodule
  rcases hP : u.tree? previous with _ | tree
  · rw [Store.submodulesOf, hP] at hmem
    cases hmem
  refine Yields.of_eq (updateTree_apply hP _) ⟨hslots, fun r => ?_, fun q => ?_, fun r => ?_⟩
  · rw [map_tree?_updateTree (by intro t; rfl), hface]
  · rw [ownerOf_updateTree (by intro t; rfl), hownerOf]
  · by_cases hr : r = previous
    · subst hr
      rw [if_neg hne, submodulesOf_of_tree? (tree?_updateTree_self hP), ← hsub,
        submodulesOf_of_tree? hP]
    · rw [submodulesOf_updateTree_of_ne hr, hsub, filter_submodulesOf ha, ite_self]
      rw [howner]
      exact fun h => hr (Option.some.inj h).symm

/-- Linking a submodule to a module, both of which exist, succeeds and changes nothing
but owners.  The tree that an earlier owner names exists, because it lists the
submodule. -/
theorem linkSubmodule_succeeds (o : s.Owned) (hne : owner ≠ submodule) {treeO treeS : Tree}
    (hO : s.tree? owner = some treeO) (hS : s.tree? submodule = some treeS) :
    Succeeds (linkSubmodule owner submodule) s fun _ t =>
      t.Owned ∧ t.slots = s.slots ∧
        ∀ r, (t.tree? r).map Tree.face = (s.tree? r).map Tree.face := by
  have hsub := fun r => submodulesOf_updateTree (s := s) (f := fun t =>
    { t with owner := some owner }) (by intro t; rfl) submodule r
  have hface := fun r => map_tree?_updateTree (s := s) (g := Tree.face) (f := fun t =>
    { t with owner := some owner }) (by intro t; rfl) submodule r
  have howner : s.ownerOf submodule = treeS.owner := by
    rw [Store.ownerOf, hS]
    rfl
  have hnext : ∀ u, Orphaned s u owner submodule → Succeeds (updateTree owner fun t =>
        if submodule ∈ t.submodules then t
        else { t with submodules := t.submodules ++ [submodule] }) u fun _ t =>
      t.Owned ∧ t.slots = s.slots ∧
        ∀ r, (t.tree? r).map Tree.face = (s.tree? r).map Tree.face :=
    fun u hu => hu.join o hne hO
  have hstay : (∀ r, r ≠ owner → s.ownerOf submodule ≠ some r) → Orphaned s
      (s.updateTree submodule fun t => { t with owner := some owner }) owner submodule := by
    intro h
    refine ⟨rfl, hface, ownerOf_assignOwner hS, fun r => ?_⟩
    rw [hsub]
    by_cases hr : r = owner
    · rw [if_pos hr]
    · rw [if_neg hr, filter_submodulesOf o.affiliated (h r hr)]
  rw [linkSubmodule, if_neg hne]
  apply Yields.bind_of_eq (tree_apply hO)
  apply Yields.bind_of_eq (tree_apply hS)
  apply Yields.bind_of_eq (updateTree_apply hS _)
  rcases hprev : treeS.owner with _ | previous
  · refine hnext _ (hstay fun r _ => ?_)
    rw [howner, hprev]
    simp
  rw [hprev] at howner
  by_cases heq : previous = owner
  · dsimp only
    rw [if_neg (not_not_intro heq)]
    refine hnext _ (hstay fun r hr h => ?_)
    rw [howner, heq] at h
    exact hr (Option.some.inj h).symm
  · dsimp only
    rw [if_pos heq]
    exact Yields.bind (Orphaned.leave o.affiliated heq howner rfl hface
      (ownerOf_assignOwner hS) hsub) fun _ u hu => hnext u hu

/-- Linking a submodule to a module fails without any change, or keeps the invariant. -/
theorem linkSubmodule_outcome (o : s.Owned) (owner submodule : RootId) :
    Yields (fun _ t => t = s) (linkSubmodule owner submodule) s fun _ t => t.Owned := by
  by_cases hne : owner = submodule
  · rw [linkSubmodule, if_pos hne]
    exact Yields.bind_of_error (throw_apply _ s) rfl
  rcases hO : s.tree? owner with _ | treeO
  · rw [linkSubmodule, if_neg hne]
    exact Yields.bind_of_error (tree_apply_of_none hO) rfl
  rcases hS : s.tree? submodule with _ | treeS
  · rw [linkSubmodule, if_neg hne]
    exact Yields.bind_of_eq (tree_apply hO) (Yields.bind_of_error (tree_apply_of_none hS) rfl)
  exact Yields.of_succeeds ((linkSubmodule_succeeds o hne hO hS).imp fun _ _ ht => ht.1)

end StoreM
end StatementForest
