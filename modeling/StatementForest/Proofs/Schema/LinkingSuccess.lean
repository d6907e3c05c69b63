import StatementForest.Proofs.Attribute.LinkPreservation
import StatementForest.Proofs.Build.StoreGrowth
import StatementForest.Schema.Basic

/-!
# Linking trees and assigning attributes never goes wrong

The trees of a store are entered by name with their live tops.  A tree is entered
as a module or as a submodule, never as both, so no tree is linked to itself.

Main results:

- Theorem `ModelTables.headed_ofStore`: what is entered is a tree with a live top.
- Theorem `OnlyExtends.linkModules`: the trees of a store are linked.
- Theorem `StoreM.applyAttributes_succeeds`: all statements get their attributes.
-/

namespace StatementForest

open Store

/-! ## Values of rolls -/

namespace Roll

variable {κ α : Type} [DecidableEq κ] {r : Roll κ α} {key : κ} {value v : α}

/-- What is found in a roll is one of its values. -/
theorem mem_values_of_find? (h : r.find? key = some v) : v ∈ r.values := by
  rw [find?, List.lookup_eq_some_iff] at h
  obtain ⟨earlier, later, heq, _⟩ := h
  rw [values, heq]
  simp

/-- The values after writing an entry are the old ones and the new one. -/
theorem mem_values_insert (h : v ∈ (r.insert key value).values) : v ∈ r.values ∨ v = value := by
  obtain ⟨entries⟩ := r
  simp only [values, insert] at h ⊢
  induction entries with
  | nil => exact .inr (by simpa [insertEntry] using h)
  | cons e rest ih =>
    obtain ⟨k, w⟩ := e
    by_cases hk : k = key
    · rw [insertEntry, if_pos hk] at h
      rcases List.mem_cons.mp h with rfl | h
      · exact .inr rfl
      · exact .inl (List.mem_cons_of_mem _ h)
    · rw [insertEntry, if_neg hk] at h
      rcases List.mem_cons.mp h with rfl | h
      · exact .inl List.mem_cons_self
      · exact (ih h).imp_left (List.mem_cons_of_mem _)

/-- The values after writing an entry under a new key are the old ones and perhaps the new one. -/
theorem mem_values_insertNew (h : v ∈ (r.insertNew key value).values) :
    v ∈ r.values ∨ v = value := by
  unfold insertNew at h
  split at h
  · exact .inl h
  · exact mem_values_insert h

end Roll

/-! ## Trees by name -/

/-- The top of a tree is live, and is or is not that of a module. -/
def Store.Headed (s : Store) (r : RootId) (isModule : Bool) : Prop :=
  ∃ x n, s.topOf r = some x ∧ s.get? x = some n ∧ n.isKeyword .module = isModule

/-- A tree keeps its top in a store that is extended. -/
theorem Store.Headed.of_extends {s t : Store} {r : RootId} {isModule : Bool}
    (h : s.Headed r isModule) (hst : Extends s t) : t.Headed r isModule := by
  obtain ⟨x, n, htop, hn, hmodule⟩ := h
  obtain ⟨m, hm, hface⟩ := hst.exists_get? hn
  refine ⟨x, m, by rw [hst.topOf, htop], hm, ?_⟩
  have hvariant : m.variant = n.variant := congrArg (·.2.1) hface
  rwa [Node.isKeyword, Node.keyword?, hvariant]

/-- A tree with a top can be looked up with it. -/
theorem Store.Headed.exists_tree {s : Store} {r : RootId} {isModule : Bool}
    (h : s.Headed r isModule) : ∃ t x n, s.tree? r = some t ∧ t.top = some x ∧
      s.get? x = some n ∧ n.isKeyword .module = isModule := by
  obtain ⟨x, n, htop, hn, hmodule⟩ := h
  obtain ⟨t, ht, hx⟩ := Option.bind_eq_some_iff.mp htop
  exact ⟨t, x, n, ht, hx, hn, hmodule⟩

namespace ModelTables

/-- Only trees with a live top are entered, those of modules on their own. -/
structure Headed (s : Store) (tables : ModelTables) : Prop where
  modules : ∀ r ∈ tables.modules.values, s.Headed r true
  submodules : ∀ r ∈ tables.submodules.values, s.Headed r false

variable {s t : Store} {tables : ModelTables}

/-- The trees in the tables keep their tops in a store that is extended. -/
theorem Headed.of_extends (h : Headed s tables) (hst : Extends s t) : Headed t tables :=
  ⟨fun r hr => (h.modules r hr).of_extends hst, fun r hr => (h.submodules r hr).of_extends hst⟩

/-- Entering another tree keeps the tables in order. -/
theorem Headed.add (h : Headed s tables) (root : RootId) : Headed s (tables.add s root) := by
  unfold ModelTables.add
  split
  · exact h
  next top htop =>
  obtain ⟨tree, htree, hbind⟩ := Option.bind_eq_some_iff.mp htop
  obtain ⟨x, hx, hn⟩ := Option.bind_eq_some_iff.mp hbind
  have hroot : s.topOf root = some x := by rw [topOf, htree, Option.bind_some, hx]
  split
  · next hmodule =>
    refine ⟨fun r hr => ?_, h.submodules⟩
    rcases Roll.mem_values_insertNew hr with hr | rfl
    · exact h.modules r hr
    · exact ⟨x, top, hroot, hn, hmodule⟩
  · next hmodule =>
    refine ⟨h.modules, fun r hr => ?_⟩
    rcases Roll.mem_values_insertNew hr with hr | rfl
    · exact h.submodules r hr
    · exact ⟨x, top, hroot, hn, Bool.not_eq_true _ ▸ hmodule⟩

/-- What is entered for a store is a tree of it with a live top. -/
theorem headed_ofStore (s : Store) : Headed s (ofStore s) := by
  have hfold : ∀ (roots : List RootId) (tables : ModelTables), Headed s tables →
      Headed s (roots.foldl (ModelTables.add s) tables) := by
    intro roots
    induction roots with
    | nil => exact fun _ h => h
    | cons root rest ih => exact fun tables h => ih _ (h.add root)
  refine hfold s.treeIds {} ⟨fun r hr => ?_, fun r hr => ?_⟩
  · cases hr
  · cases hr

end ModelTables

/-! ## Linking -/

namespace OnlyExtends

variable {env : Environment} {state : BuildState} {tables : ModelTables}

/-- The check of an `include` only extends the store. -/
theorem checkInclude {id : NodeId} (o : state.store.Owned)
    (hid : state.store.contains id = true) :
    OnlyExtends env (BuildM.checkInclude env tables id) state := by
  refine bind_node hid fun _ _ => ?_
  dsimp only
  split
  · exact pure o
  · exact reportOn o hid _ _

/-- The check of all of them only extends the store. -/
theorem checkIncludes {r : RootId} {isModule : Bool} (o : state.store.Owned)
    (hr : state.store.Headed r isModule) :
    OnlyExtends env (BuildM.checkIncludes env tables r) state := by
  obtain ⟨tree, top, n, htree, htop, hn, -⟩ := hr.exists_tree
  apply ExtendsStore.bind_of_eq (Reading.tree_apply htree)
  rw [htop]
  apply ExtendsStore.bind_of_eq (Reading.childrenOfKeyword_apply hn _)
  refine forM o fun c hc t ht => ?_
  exact checkInclude ht.owned (ht.contains c (o.wired.contains_child (List.mem_of_mem_filter hc)))

/-- Reporting a submodule without a module only extends the store. -/
theorem reportOrphan {top belongsTo : NodeId} (policy : OrphanPolicy) (o : state.store.Owned)
    (htop : state.store.contains top = true)
    (hbelongs : state.store.contains belongsTo = true) (submodule owner : String) :
    OnlyExtends env (BuildM.reportOrphan env policy top belongsTo submodule owner) state := by
  refine bind (reportOn o hbelongs _ _) fun _ t ht => ?_
  split
  · exact reportOn ht.owned (ht.contains top htop) _ _
  · exact pure ht.owned

/-- Looking for an `include` in a tree with a live top only reads. -/
theorem includes_apply {s : Store} {r : RootId} {isModule : Bool} (hr : s.Headed r isModule)
    (submodule : String) : ∃ found, StoreM.includes r submodule s = (.ok found, s) := by
  obtain ⟨tree, top, n, htree, htop, hn, -⟩ := hr.exists_tree
  rw [StoreM.includes, bind_apply, StoreM.tree_apply htree]
  simp only [htop]
  rw [bind_apply, StoreM.childrenOfKeyword_apply hn]
  exact ⟨_, rfl⟩

/-- A submodule is linked to a module, since these are different trees. -/
theorem joinModule {ownerRoot root : RootId} {top : NodeId} (o : state.store.Owned)
    (howner : state.store.Headed ownerRoot true) (hroot : state.store.Headed root false)
    (htop : state.store.contains top = true) (submodule owner : String) :
    OnlyExtends env (BuildM.joinModule env ownerRoot root top submodule owner) state := by
  obtain ⟨treeO, x, n, hO, hx, hn, hmodule⟩ := howner.exists_tree
  obtain ⟨treeS, y, m, hS, hy, hm, hnot⟩ := hroot.exists_tree
  have hne : ownerRoot ≠ root := by
    rintro rfl
    rw [hO] at hS
    cases hS
    rw [hx] at hy
    cases hy
    rw [hn] at hm
    cases hm
    rw [hmodule] at hnot
    cases hnot
  refine bind (ExtendsStore.onStore ((StoreM.linkSubmodule_succeeds o hne hO hS).imp ?_)) ?_
  · intro _ t ⟨ot, hslots, htree⟩
    exact ⟨Extends.of_slots_eq ot hslots htree, trivial⟩
  intro _ t ht
  obtain ⟨found, hfound⟩ := includes_apply (howner.of_extends ht) submodule
  apply ExtendsStore.bind_of_eq (a := found) (by rw [onStore_apply, hfound])
  split
  · exact pure ht.owned
  · exact reportOn ht.owned (ht.contains top htop) _ _

/-- Linking a tree only extends the store. -/
theorem linkTree {r : RootId} (policy : OrphanPolicy) (o : state.store.Owned)
    (h : tables.Headed state.store) (hr : r ∈ tables.submodules.values) :
    OnlyExtends env (BuildM.linkTree env policy tables r) state := by
  have hhead := h.submodules r hr
  obtain ⟨tree, top, n, htree, htop, hn, -⟩ := hhead.exists_tree
  have hlive := contains_iff.mpr ⟨n, hn⟩
  apply ExtendsStore.bind_of_eq (Reading.tree_apply htree)
  rw [htop]
  apply bind_childrenOfKeyword hlive
  rcases hbelongs : state.store.childrenOfKeyword top .belongsTo with _ | ⟨belongsTo, rest⟩
  · exact pure o
  have hmem : belongsTo ∈ state.store.childrenOf top := by
    refine List.mem_of_mem_filter
      (p := fun c => (state.store.get? c).any (·.isKeyword .belongsTo)) ?_
    change belongsTo ∈ state.store.childrenOfKeyword top .belongsTo
    rw [hbelongs]
    exact List.mem_cons_self
  have hchild := o.wired.contains_child hmem
  refine bind_node hchild fun b _ => bind_node hlive fun _ _ => ?_
  dsimp only
  split
  · exact reportOrphan policy o hlive hchild _ _
  · next ownerRoot howner =>
    exact joinModule o (h.modules _ (Roll.mem_values_of_find? howner)) hhead hlive _ _

/-- The trees of a store are linked, or linking stops because it was asked to. -/
theorem linkModules (policy : OrphanPolicy) (o : state.store.Owned) :
    OnlyExtends env (BuildM.linkModules env policy) state := by
  have h := ModelTables.headed_ofStore state.store
  apply ExtendsStore.bind_of_eq Reading.store_apply
  refine bind (forM o fun r hr t ht => ?_) fun _ t ht => ?_
  · exact checkIncludes ht.owned ((h.of_extends ht).modules r hr)
  refine bind (forM ht.owned fun r hr u hu => ?_) fun _ u hu => pure hu.owned
  exact linkTree policy hu.owned (h.of_extends (ht.trans hu)) hr

end OnlyExtends

/-! ## Attributes -/

namespace Store

variable {s : Store} {r : RootId}

/-- The tree that an owner names exists, because it lists the submodule. -/
theorem Affiliated.exists_tree {q : RootId} (ha : s.Affiliated) (h : s.ownerOf q = some r) :
    ∃ tree, s.tree? r = some tree := by
  have hmem := (ha.mem_submodules r q).mpr h
  rw [submodulesOf] at hmem
  split at hmem
  · next tree htree => exact ⟨tree, htree⟩
  · cases hmem

/-- The top of a tree is live. -/
theorem Rooted.exists_top {tree : Tree} {x : NodeId} (hr : s.Rooted)
    (h : s.tree? r = some tree) (hx : tree.top = some x) : ∃ n, s.get? x = some n := by
  refine contains_iff.mp (contains_of_rootOf (hr.rootOf_top r x ?_))
  rw [topOf, h, Option.bind_some, hx]

/-- The namespace of a tree is found whether it is owned, orphaned or its own. -/
theorem Owned.namespaceOf_eq_ok {tree : Tree} (o : s.Owned) (h : s.tree? r = some tree) :
    ∃ uri, s.namespaceOf r = .ok uri := by
  have howning : ∃ owner, s.owningTree r = .ok owner ∧
      ∀ q, owner = some q → ∃ tree, s.tree? q = some tree := by
    simp only [owningTree, Store.tree, h]
    rcases htop : tree.top with _ | top
    · exact ⟨none, by simp [bind, Except.bind, pure, Except.pure, htop], by simp⟩
    obtain ⟨n, hn⟩ := o.rooted.exists_top h htop
    by_cases hsub : n.isKeyword .submodule = true
    · refine ⟨tree.owner, ?_, fun q hq => o.affiliated.exists_tree (q := r) ?_⟩
      · simp [htop, node_of_get? hn, hsub, bind, Except.bind, pure, Except.pure]
      · rw [ownerOf, h, Option.bind_some, hq]
    · refine ⟨some r, ?_, fun q hq => ⟨tree, by rw [← Option.some.inj hq, h]⟩⟩
      simp [htop, node_of_get? hn, hsub, bind, Except.bind, pure, Except.pure]
  obtain ⟨owner, howner, hlive⟩ := howning
  rw [namespaceOf, howner]
  rcases owner with _ | q
  · exact ⟨none, rfl⟩
  obtain ⟨treeQ, hQ⟩ := hlive q rfl
  simp only [bind, Except.bind, Store.tree, hQ]
  rcases htop : treeQ.top with _ | top
  · exact ⟨none, rfl⟩
  obtain ⟨n, hn⟩ := o.rooted.exists_top hQ htop
  simp only [node_of_get? hn]
  exact ⟨_, rfl⟩

/-- A tree that is listed can be looked up. -/
theorem exists_tree_of_mem_treeIds (h : r ∈ s.treeIds) : ∃ tree, s.tree? r = some tree := by
  obtain ⟨i, hi, rfl⟩ := List.mem_map.mp h
  have hlt : i < s.trees.size := List.mem_range.mp hi
  exact ⟨s.trees[i], Array.getElem?_eq_getElem hlt⟩

end Store

namespace StoreM

variable {s : Store}

/-- The statements of a tree get their attributes, and no link changes. -/
theorem applyTreeAttributes_succeeds (o : s.Owned) {r : RootId} {tree : Tree}
    (h : s.tree? r = some tree) :
    Succeeds (applyTreeAttributes r) s fun _ t => Parallel s t := by
  apply Yields.bind_of_eq (tree_apply h)
  rcases htop : tree.top with _ | top
  · exact Yields.pure (Parallel.refl s)
  obtain ⟨n, hn⟩ := o.rooted.exists_top h htop
  have hlive := contains_iff.mpr ⟨n, hn⟩
  obtain ⟨uri, huri⟩ := o.namespaceOf_eq_ok h
  apply Yields.bind_of_eq (node_apply hn)
  apply Yields.bind_of_eq (a := uri) (t := s) (by rw [query_apply, huri])
  have hnext : ∀ t, Parallel s t → t.Wired ∧ t.contains top = true := fun t ht =>
    ⟨(o.of_parallel ht).wired, by rw [ht.contains, hlive]⟩
  refine Yields.bind (assignNamespace_succeeds o.wired hlive uri) fun _ t ht => ?_
  obtain ⟨wt, hlive⟩ := hnext t ht
  refine Yields.bind (assignConformance_succeeds wt hlive _) fun _ u hu => ?_
  have hu := ht.trans hu
  obtain ⟨wu, hlive⟩ := hnext u hu
  refine Yields.bind (assignStatus_succeeds wu hlive _) fun _ v hv => ?_
  have hv := hu.trans hv
  obtain ⟨wv, hlive⟩ := hnext v hv
  exact (assignConfig_succeeds wv hlive true).imp fun _ _ hw => hv.trans hw

/-- The statements of all trees get their attributes, and no link changes. -/
theorem applyAttributes_succeeds (o : s.Owned) :
    Succeeds applyAttributes s fun _ t => Parallel s t := by
  refine Yields.bind_get (Yields.forM_of_invariant (Parallel.refl s) ?_)
  intro r hr t ht
  obtain ⟨tree, htree⟩ := exists_tree_of_mem_treeIds hr
  have htree' : t.tree? r = some tree := by rw [tree?, ht.trees, ← tree?, htree]
  exact (applyTreeAttributes_succeeds (o.of_parallel ht) htree').imp fun _ _ hu => ht.trans hu

end StoreM

end StatementForest
