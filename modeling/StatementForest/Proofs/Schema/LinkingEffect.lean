import StatementForest.Proofs.Schema.DocumentOrder
import StatementForest.Proofs.Collection.RollOrder

/-!
# What linking does

Trees are linked by the names of their tops.  A submodule is joined to the module that its
first `belongs-to` names, and what is missing is reported.  All of this is found out from
the tops and their children, which linking does not change, so no tree is linked in a
different way because another one was linked before.

Main results:

- Theorem `BuildM.reportAll_logs`: recording findings changes nothing else.
- Theorem `BuildM.linkModules_spec`: the owners and the findings that linking leaves behind.
- Theorem `ModelTables.ofStore_renamed`: the tables of trees with different names are the
  same under new numbers.
- Theorem `BuildM.linked_renamed`, `BuildM.mem_linkingFindings`: trees under new numbers get
  the same owners, and the same is found.
-/

namespace StatementForest

open Store

/-! ## Recording findings -/

/-- Stores that differ only in findings and in lists of submodules from others are renamed
like those. -/
theorem Store.Renamed.congr {f : Renaming} {a b a' b' : Store} (h : Renamed f a b)
    (ha : Renamed .refl a a') (hb : Renamed .refl b b') : Renamed f a' b' :=
  (ha.symm.trans h).trans hb

/-- A step has recorded some findings and changed nothing else. -/
structure BuildState.Logs (findings : List Finding) (a b : BuildState) : Prop where
  store : a.store.Renamed .refl b.store
  log : b.log = a.log.addAll findings

namespace BuildState

variable {f : Renaming} {a b c a' b' : BuildState} {findings findings' : List Finding}

theorem Logs.refl (a : BuildState) : a.Logs [] a := ⟨.refl a.store, rfl⟩

theorem Logs.trans (h : a.Logs findings b) (h' : b.Logs findings' c) :
    a.Logs (findings ++ findings') c where
  store := h.store.trans h'.store
  log := by
    rw [h'.log, h.log]
    exact List.foldl_append.symm

/-- Recording the same findings under new numbers keeps states the same. -/
theorem Renamed.add_findings (h : a.Renamed f b) (hstore : a'.store.Renamed f b'.store)
    (ha : a'.log = a.log.addAll findings) (hb : b'.log = b.log.addAll findings')
    (hmem : ∀ g : Finding, g.rename f ∈ findings' ↔ g ∈ findings) : a'.Renamed f b' where
  store := hstore
  policy := by rw [ha, hb, FindingLog.policy_addAll, FindingLog.policy_addAll, h.policy]
  mem_log g := by
    rw [ha, hb, FindingLog.mem_addAll, FindingLog.mem_addAll, h.mem_log, hmem, h.policy,
      Finding.kind_rename]

/-- Renamed states stay renamed when they record the same findings, renamed. -/
theorem Renamed.logs (h : a.Renamed f b) (ha : a.Logs findings a') (hb : b.Logs findings' b')
    (hmem : ∀ g : Finding, g.rename f ∈ findings' ↔ g ∈ findings) : a'.Renamed f b' :=
  h.add_findings (h.store.congr ha.store hb.store) ha.log hb.log hmem

end BuildState

/-- Keeping a finding with a statement changes nothing else. -/
theorem Store.Renamed.attachFinding (s : Store) (g : Finding) :
    s.Renamed .refl (s.attachFinding g) := by
  rw [Store.attachFinding]
  split
  · next x _ =>
    refine ⟨size_slots_update _ _ _, by rw [trees_update], fun y => ?_, fun r => ?_⟩
    · change ((s.update x _).get? y).map Node.bare = _
      rw [get?_update]
      split
      · rw [Option.map_map]
        exact congrArg (Option.map · _) (funext fun n => (Node.rename_refl n).symm)
      · exact congrArg (Option.map · _) (funext fun n => (Node.rename_refl n).symm)
    · exact (Renamed.refl s).tree? r
  · exact .refl s

namespace BuildM

variable {env : Environment} {state : BuildState}

/-- A finding is recorded when nothing asks to stop. -/
theorem report_logs (hstop : env.stopAt = none) (g : Finding) :
    Succeeds (report env g) state fun _ t => state.Logs [g] t := by
  have hadd : state.log.addAll [g] = (state.log.add g).1 := rfl
  rw [report]
  apply Yields.bind_get
  rcases hseverity : state.log.severityOf g with _ | severity
  · refine Yields.pure ⟨.refl _, ?_⟩
    have hsuppress : state.log.policy.suppresses g.kind = true :=
      Option.isNone_iff_eq_none.mpr hseverity
    rw [hadd, FindingLog.add, hsuppress, Bool.true_or, if_pos rfl]
  · apply Yields.bind_of_eq (modify_apply _ state)
    rw [hstop, Option.any_none, if_neg Bool.false_ne_true]
    exact Yields.pure ⟨.attachFinding _ g, hadd.symm⟩

/-- Reporting findings records them and changes nothing else. -/
theorem reportAll_logs (hstop : env.stopAt = none) (findings : List Finding) :
    Succeeds (reportAll env findings) state fun _ t => state.Logs findings t := by
  induction findings generalizing state with
  | nil => exact Yields.pure (.refl state)
  | cons g rest ih =>
    refine Yields.bind (report_logs hstop g) fun _ t ht => ?_
    exact ih.imp fun _ u hu => ht.trans hu

/-- Reporting about a statement records one finding and changes nothing else. -/
theorem reportOn_logs (hstop : env.stopAt = none) {x : NodeId} {n : Node}
    (hn : state.store.get? x = some n) (kind : FindingKind) (message : String) :
    Succeeds (reportOn env x kind message) state fun _ t =>
      state.Logs [⟨n.subject x, kind, message⟩] t := by
  refine Yields.bind_of_eq (Reading.node_apply hn) ?_
  exact report_logs hstop _

end BuildM

/-! ## What linking finds -/

namespace Store

/-- Whether a tree includes a submodule. -/
def includes (s : Store) (owner : RootId) (submodule : String) : Bool :=
  match s.topOf owner with
  | none => false
  | some top => (s.childrenOfKeyword top .includeStatement).any fun i =>
    (s.get? i).any (·.argument == submodule)

/-- The tree that a tree is joined to. -/
def joins? (s : Store) (tables : ModelTables) (root : RootId) : Option RootId :=
  ((s.topOf root).bind fun top => s.firstNodeOfKeyword top .belongsTo).bind fun b =>
    tables.modules.find? b.argument

/-- The findings about one `include`. -/
def includeFindingsAt (s : Store) (tables : ModelTables) (id : NodeId) : List Finding :=
  match s.get? id with
  | none => []
  | some n =>
    if tables.submodules.contains n.argument then []
    else [⟨n.subject id, .unresolvableInclude, missingSubmoduleMessage n.argument⟩]

/-- The findings about what a module includes. -/
def includeFindings (s : Store) (tables : ModelTables) (root : RootId) : List Finding :=
  match s.topOf root with
  | none => []
  | some top => (s.childrenOfKeyword top .includeStatement).flatMap (s.includeFindingsAt tables)

/-- The findings about a submodule whose module is missing. -/
def orphanFindings (policy : OrphanPolicy) (top belongsTo : NodeId) (n b : Node) :
    List Finding :=
  ⟨b.subject belongsTo, .unresolvableBelongsTo, missingModuleMessage b.argument⟩ ::
    if policy = .emitFinding then
      [⟨n.subject top, .orphanSubmodule, orphanMessage n.argument⟩]
    else []

/-- The findings about how a tree is joined to a module. -/
def joinFindings (s : Store) (policy : OrphanPolicy) (tables : ModelTables)
    (root : RootId) : List Finding :=
  match s.topOf root with
  | none => []
  | some top =>
    match s.firstOfKeyword top .belongsTo with
    | none => []
    | some belongsTo =>
      match s.get? top, s.get? belongsTo with
      | some n, some b =>
        match tables.modules.find? b.argument with
        | none => orphanFindings policy top belongsTo n b
        | some owner =>
          if s.includes owner n.argument then []
          else [⟨n.subject top, .orphanSubmodule, notIncludedMessage b.argument⟩]
      | _, _ => []

/-- Other owners for some trees. -/
def adopt (s : Store) (owner? : RootId → Option RootId) : Store :=
  { s with trees := s.trees.mapIdx fun i t => { t with owner := (owner? ⟨i⟩).or t.owner } }

variable {s : Store} {owner? owner?' : RootId → Option RootId} {r : RootId}

/-- A tree has its new owner, if there is one, and is the same otherwise. -/
theorem tree?_adopt (s : Store) (owner? : RootId → Option RootId) (r : RootId) :
    (s.adopt owner?).tree? r =
      (s.tree? r).map fun t => { t with owner := (owner? r).or t.owner } :=
  Array.getElem?_mapIdx

/-- New owners change no top. -/
theorem topOf_adopt (s : Store) (owner? : RootId → Option RootId) (r : RootId) :
    (s.adopt owner?).topOf r = s.topOf r := by
  rw [topOf, topOf, tree?_adopt]
  rcases s.tree? r with _ | t <;> rfl

/-- Of two new owners the later one counts. -/
theorem adopt_adopt (s : Store) (owner? owner?' : RootId → Option RootId) :
    (s.adopt owner?).adopt owner?' = s.adopt fun r => (owner?' r).or (owner? r) := by
  simp only [adopt, Array.mapIdx_mapIdx, Option.or_assoc]
  rfl

/-- A store without new owners stays as it is. -/
theorem adopt_none (s : Store) : (s.adopt fun _ => none) = s := by
  obtain ⟨slots, trees⟩ := s
  simp only [adopt, Option.none_or, Store.mk.injEq, true_and]
  exact Array.ext (by simp) fun i hi hi' => by simp

/-- New owners do not change what a tree is joined to. -/
theorem joins?_adopt (s : Store) (owner? : RootId → Option RootId) (tables : ModelTables)
    (r : RootId) : (s.adopt owner?).joins? tables r = s.joins? tables r := by
  rw [joins?, joins?, topOf_adopt]
  rfl

/-- New owners do not change what a tree includes. -/
theorem includes_adopt (s : Store) (owner? : RootId → Option RootId) (owner : RootId)
    (name : String) : (s.adopt owner?).includes owner name = s.includes owner name := by
  rw [includes, includes, topOf_adopt]
  rfl

/-- New owners do not change what is found when a tree is joined. -/
theorem joinFindings_adopt (s : Store) (owner? : RootId → Option RootId)
    (policy : OrphanPolicy) (tables : ModelTables) (r : RootId) :
    (s.adopt owner?).joinFindings policy tables r = s.joinFindings policy tables r := by
  rw [joinFindings, joinFindings, topOf_adopt]
  simp only [includes_adopt]
  rfl

end Store

/-! ### Under new numbers -/

/-- The tables find the same trees under new numbers. -/
structure ModelTables.Renamed (f : Renaming) (tables tables' : ModelTables) : Prop where
  modules : ∀ name, tables'.modules.find? name = (tables.modules.find? name).map f.tree
  submodules : ∀ name, tables'.submodules.find? name = (tables.submodules.find? name).map f.tree
  perm_modules : (tables.modules.values.map f.tree).Perm tables'.modules.values
  perm_submodules : (tables.submodules.values.map f.tree).Perm tables'.submodules.values

theorem ModelTables.Renamed.refl (tables : ModelTables) : Renamed .refl tables tables where
  modules _ := (congrFun Option.map_id _).symm
  submodules _ := (congrFun Option.map_id _).symm
  perm_modules := List.Perm.of_eq (List.map_id _)
  perm_submodules := List.Perm.of_eq (List.map_id _)

/-- Findings stay as they are under their own numbers. -/
theorem Finding.map_rename_refl (findings : List Finding) :
    findings.map (Finding.rename .refl) = findings := by
  rw [funext Finding.rename_refl]
  exact List.map_id _

namespace Store.Renamed

variable {f : Renaming} {a b : Store} {tables tables' : ModelTables} {r : RootId}
  {owner? owner?' : RootId → Option RootId}

/-- The first child of a keyword is found under its new number. -/
theorem firstOfKeyword (h : Renamed f a b) (x : NodeId) (k : Keyword) :
    b.firstOfKeyword (f.node x) k = (a.firstOfKeyword x k).map f.node := by
  rw [Store.firstOfKeyword, Store.firstOfKeyword, h.childrenOfKeyword, List.head?_map]

/-- A renamed tree includes the same submodules. -/
theorem includes (h : Renamed f a b) (owner : RootId) (submodule : String) :
    b.includes (f.tree owner) submodule = a.includes owner submodule := by
  rw [Store.includes, Store.includes, h.topOf]
  rcases a.topOf owner with _ | top
  · rfl
  simp only [Option.map_some]
  rw [h.childrenOfKeyword, List.any_map]
  refine congrArg (List.any _) (funext fun i => ?_)
  exact h.any_get? (fun n m hnm => by rw [hnm.argument]) i

/-- A renamed tree is joined to the same tree, renamed. -/
theorem joins? (h : Renamed f a b) (htables : ModelTables.Renamed f tables tables')
    (r : RootId) : b.joins? tables' (f.tree r) = (a.joins? tables r).map f.tree := by
  rw [Store.joins?, Store.joins?, h.topOf]
  rcases a.topOf r with _ | top
  · rfl
  simp only [Option.map_some, Option.bind_some]
  have hname := h.map_firstNodeOfKeyword (w := Node.argument) (fun _ _ hnm => hnm.argument) top
    .belongsTo
  rcases hb : a.firstNodeOfKeyword top .belongsTo with _ | n
  · rw [hb, Option.map_none, Option.map_eq_none_iff] at hname
    rw [hname]
    rfl
  · rw [hb, Option.map_some, Option.map_eq_some_iff] at hname
    obtain ⟨m, hm, hargument⟩ := hname
    rw [hm, Option.bind_some, Option.bind_some, hargument]
    exact htables.modules _

/-- The subject of a renamed statement is the same, renamed. -/
theorem subject {n m : Node} (hnm : n.Renamed f m) (x : NodeId) :
    m.subject (f.node x) = (n.subject x).rename f := by
  rw [Node.subject, Node.subject, hnm.element]
  rfl

/-- What is found about one `include` is the same, renamed. -/
theorem includeFindingsAt (h : Renamed f a b)
    (htables : ModelTables.Renamed f tables tables') (x : NodeId) :
    b.includeFindingsAt tables' (f.node x) =
      (a.includeFindingsAt tables x).map (Finding.rename f) := by
  rw [Store.includeFindingsAt, Store.includeFindingsAt]
  rcases hn : a.get? x with _ | n
  · rw [h.get?_eq_none hn]
    rfl
  · obtain ⟨m, hm, hnm⟩ := h.exists_get? hn
    rw [hm]
    dsimp only
    rw [Roll.contains, Roll.contains, htables.submodules, Option.isSome_map, hnm.argument,
      subject hnm]
    split <;> rfl

/-- What is found about all of them is the same, renamed. -/
theorem includeFindings (h : Renamed f a b) (htables : ModelTables.Renamed f tables tables')
    (r : RootId) :
    b.includeFindings tables' (f.tree r) =
      (a.includeFindings tables r).map (Finding.rename f) := by
  rw [Store.includeFindings, Store.includeFindings, h.topOf]
  rcases a.topOf r with _ | top
  · rfl
  simp only [Option.map_some]
  rw [h.childrenOfKeyword, List.flatMap_map, List.map_flatMap]
  exact List.flatMap_congr fun i _ => h.includeFindingsAt htables i

/-- What is found when a tree is joined is the same, renamed. -/
theorem joinFindings (h : Renamed f a b) (htables : ModelTables.Renamed f tables tables')
    (policy : OrphanPolicy) (r : RootId) :
    b.joinFindings policy tables' (f.tree r) =
      (a.joinFindings policy tables r).map (Finding.rename f) := by
  rw [Store.joinFindings, Store.joinFindings, h.topOf]
  rcases a.topOf r with _ | top
  · rfl
  simp only [Option.map_some, h.firstOfKeyword]
  rcases a.firstOfKeyword top .belongsTo with _ | belongsTo
  · rfl
  simp only [Option.map_some]
  rcases hn : a.get? top with _ | n
  · rw [h.get?_eq_none hn]
    rfl
  obtain ⟨m, hm, hnm⟩ := h.exists_get? hn
  rcases hb : a.get? belongsTo with _ | n'
  · rw [hm, h.get?_eq_none hb]
    rfl
  obtain ⟨m', hm', hnm'⟩ := h.exists_get? hb
  rw [hm, hm']
  dsimp only
  rw [htables.modules, hnm'.argument]
  rcases tables.modules.find? n'.argument with _ | owner
  · dsimp only [Option.map_none]
    rw [orphanFindings, orphanFindings, subject hnm, subject hnm', hnm.argument, hnm'.argument]
    split <;> rfl
  · dsimp only [Option.map_some]
    rw [h.includes, hnm.argument, subject hnm]
    split <;> rfl

/-! #### When the numbers stay -/

/-- Stores with the same statements join a tree to the same tree. -/
theorem joins?_eq (h : Renamed .refl a b) (tables : ModelTables) (r : RootId) :
    b.joins? tables r = a.joins? tables r :=
  (h.joins? (.refl tables) r).trans (congrFun Option.map_id _)

theorem includeFindingsAt_eq (h : Renamed .refl a b) (tables : ModelTables) (x : NodeId) :
    b.includeFindingsAt tables x = a.includeFindingsAt tables x :=
  (h.includeFindingsAt (.refl tables) x).trans (Finding.map_rename_refl _)

theorem includeFindings_eq (h : Renamed .refl a b) (tables : ModelTables) (r : RootId) :
    b.includeFindings tables r = a.includeFindings tables r :=
  (h.includeFindings (.refl tables) r).trans (Finding.map_rename_refl _)

theorem joinFindings_eq (h : Renamed .refl a b) (policy : OrphanPolicy) (tables : ModelTables)
    (r : RootId) : b.joinFindings policy tables r = a.joinFindings policy tables r :=
  (h.joinFindings (.refl tables) policy r).trans (Finding.map_rename_refl _)

/-! #### Other owners -/

/-- Renamed stores stay renamed when their trees get the same owners, renamed. -/
theorem adopt (h : Renamed f a b) (howner : ∀ r, owner?' (f.tree r) = (owner? r).map f.tree) :
    Renamed f (a.adopt owner?) (b.adopt owner?') where
  size := h.size
  size_trees := by
    rw [Store.adopt, Store.adopt, Array.size_mapIdx, Array.size_mapIdx, h.size_trees]
  get? x := h.get? x
  tree? r := by
    rw [tree?_adopt, tree?_adopt]
    rcases ht : a.tree? r with _ | t
    · have hr := h.tree? r
      rw [ht, Option.map_none, Option.map_eq_none_iff] at hr
      rw [hr]
      rfl
    · obtain ⟨t', ht', hlone⟩ := h.exists_tree? ht
      rw [ht', howner]
      obtain ⟨⟩ := t
      obtain ⟨⟩ := t'
      simp only [Tree.lone, Tree.rename, Tree.mk.injEq] at hlone
      simp only [Option.map_some, Tree.lone, Tree.rename, Option.some.injEq, Tree.mk.injEq,
        Option.map_or]
      simp [hlone]

/-- Stores with the same statements still have the same ones with new owners. -/
theorem adopt_same (h : Renamed .refl a b) (owner? : RootId → Option RootId) :
    Renamed .refl (a.adopt owner?) (b.adopt owner?) :=
  h.adopt fun _ => (congrFun Option.map_id _).symm

/-- A change of a tree that only touches its list of submodules. -/
theorem updateTree (s : Store) (id : RootId) {w : Tree → Tree} (hw : ∀ t, (w t).lone = t.lone) :
    Renamed .refl s (s.updateTree id w) where
  size := rfl
  size_trees := by rw [Store.updateTree, Array.size_modify]
  get? x := (Renamed.refl s).get? x
  tree? r := by
    have hself := (Renamed.refl s).tree? r
    change ((s.updateTree id w).tree? r).map Tree.lone = _
    rw [tree?_updateTree]
    split
    · rw [Option.map_map]
      have hlone : Tree.lone ∘ w = Tree.lone := funext hw
      rw [hlone]
      exact hself
    · exact hself

end Store.Renamed

/-! ## One tree after another -/

/-- The tree with a number gets another owner. -/
def Store.adoptOne (s : Store) (root owner : RootId) : Store :=
  s.adopt fun r => if r = root then some owner else none

/-- Writing the owner of a tree is all that changes. -/
theorem Store.Renamed.updateTree_owner (s : Store) (root owner : RootId) :
    (s.adoptOne root owner).Renamed .refl
      (s.updateTree root fun t => { t with owner := some owner }) where
  size := rfl
  size_trees := by
    rw [adoptOne, Store.adopt, Store.updateTree, Array.size_mapIdx, Array.size_modify]
  get? x := (Renamed.refl s).get? x
  tree? r := by
    have hself := (Renamed.refl (s.adoptOne root owner)).tree? r
    rw [← hself, adoptOne]
    change ((s.updateTree root _).tree? r).map Tree.lone = ((s.adopt _).tree? r).map Tree.lone
    rw [tree?_updateTree, tree?_adopt]
    split
    · rw [Option.map_map, Option.map_map]
      rfl
    · rw [Option.map_map]
      rfl

/-- A submodule gets its owner.  Whatever else happens touches lists of submodules only. -/
theorem StoreM.linkSubmodule_spec {s : Store} {owner submodule : RootId} (o : s.Owned)
    (hne : owner ≠ submodule) {treeO treeS : Tree} (hO : s.tree? owner = some treeO)
    (hS : s.tree? submodule = some treeS) :
    Succeeds (linkSubmodule owner submodule) s fun _ t =>
      (s.adoptOne submodule owner).Renamed .refl t := by
  have hfirst := Renamed.updateTree_owner s submodule owner
  have hlast : ∀ u : Store, (s.adoptOne submodule owner).Renamed .refl u →
      Succeeds (StoreM.updateTree owner fun t => if submodule ∈ t.submodules then t
        else { t with submodules := t.submodules ++ [submodule] }) u fun _ t =>
          (s.adoptOne submodule owner).Renamed .refl t := by
    intro u hu
    have hlive : (u.tree? owner).isSome = true := by
      have hmap := congrArg Option.isSome (hu.tree? owner)
      rw [Option.isSome_map, Option.isSome_map, adoptOne, tree?_adopt, hO] at hmap
      exact hmap
    obtain ⟨tree, htree⟩ := Option.isSome_iff_exists.mp hlive
    refine Yields.of_eq (updateTree_apply htree _) (hu.trans (Renamed.updateTree u owner ?_))
    intro t
    split <;> rfl
  rw [linkSubmodule, if_neg hne]
  apply Yields.bind_of_eq (tree_apply hO)
  apply Yields.bind_of_eq (tree_apply hS)
  apply Yields.bind_of_eq (updateTree_apply hS _)
  rcases hprev : treeS.owner with _ | previous
  · exact hlast _ hfirst
  dsimp only
  split
  · have hprevious : s.ownerOf submodule = some previous := by
      rw [ownerOf, hS, Option.bind_some, hprev]
    obtain ⟨tree, htree⟩ := o.affiliated.exists_tree hprevious
    have hlive : ∃ tree', (s.updateTree submodule fun t =>
        { t with owner := some owner }).tree? previous = some tree' := by
      rw [tree?_updateTree, htree]
      split <;> exact ⟨_, rfl⟩
    obtain ⟨tree', htree'⟩ := hlive
    refine Yields.bind (Yields.of_eq (updateTree_apply htree' _) ?_) fun _ u hu => hlast u hu
    refine hfirst.trans (Renamed.updateTree _ previous ?_)
    intro t
    rfl
  · exact hlast _ hfirst

namespace BuildM

variable {env : Environment} {state : BuildState} {tables : ModelTables} {r : RootId}

/-- A loop records what every round does.  What a round finds does not depend on what was
recorded before it. -/
theorem forM_logs {α : Type} {items : List α} {m : α → BuildM PUnit}
    {findings : α → List Finding} (o : state.store.Owned)
    (h : ∀ i ∈ items, ∀ t : BuildState, t.store.Owned → state.store.Renamed .refl t.store →
      Succeeds (m i) t fun _ u => t.Logs (findings i) u ∧ u.store.Owned) :
    Succeeds (items.forM m) state fun _ t =>
      state.Logs (items.flatMap findings) t ∧ t.store.Owned := by
  induction items generalizing state with
  | nil => exact Yields.pure ⟨.refl state, o⟩
  | cons i rest ih =>
    refine Yields.bind (h i List.mem_cons_self state o (.refl _)) fun _ t ⟨ht, ot⟩ => ?_
    refine (ih ot fun j hj u ou hu => ?_).imp fun _ u ⟨hu, ou⟩ => ⟨ht.trans hu, ou⟩
    exact h j (List.mem_cons_of_mem _ hj) u ou (ht.store.trans hu)

/-- An `include` of a submodule that is missing is reported. -/
theorem checkInclude_logs (hstop : env.stopAt = none) {id : NodeId}
    (hid : state.store.contains id = true) :
    Succeeds (checkInclude env tables id) state fun _ t =>
      state.Logs (state.store.includeFindingsAt tables id) t := by
  obtain ⟨n, hn⟩ := contains_iff.mp hid
  refine Yields.bind_of_eq (Reading.node_apply hn) ?_
  rw [includeFindingsAt, hn]
  dsimp only
  split
  · exact Yields.pure (.refl state)
  · exact reportOn_logs hstop hn _ _

/-- What is missing among the includes of a module is reported. -/
theorem checkIncludes_logs (hstop : env.stopAt = none) (o : state.store.Owned)
    {isModule : Bool} (hr : state.store.Headed r isModule) :
    Succeeds (checkIncludes env tables r) state fun _ t =>
      state.Logs (state.store.includeFindings tables r) t ∧ t.store.Owned := by
  obtain ⟨tree, top, n, htree, htop, hn, -⟩ := hr.exists_tree
  have hroot : state.store.topOf r = some top := by rw [topOf, htree, Option.bind_some, htop]
  apply Yields.bind_of_eq (Reading.tree_apply htree)
  rw [htop]
  apply Yields.bind_of_eq (Reading.childrenOfKeyword_apply hn _)
  rw [includeFindings, hroot]
  refine forM_logs o fun i hi t ot ht => ?_
  have hlive : t.store.contains i = true := by
    have hcontains := ht.contains i
    rw [o.wired.contains_child (List.mem_of_mem_filter hi)] at hcontains
    exact hcontains
  rw [← ht.includeFindingsAt_eq tables i]
  exact ((checkInclude_logs hstop hlive).and (OnlyExtends.checkInclude ot hlive)).imp
    fun _ u hu => ⟨hu.1, hu.2.1.owned⟩

/-- Asking whether a tree includes a submodule finds it out and changes nothing. -/
theorem includes_apply {s : Store} {owner : RootId} {isModule : Bool}
    (hr : s.Headed owner isModule) (submodule : String) :
    StoreM.includes owner submodule s = (.ok (s.includes owner submodule), s) := by
  obtain ⟨tree, top, n, htree, htop, hn, -⟩ := hr.exists_tree
  have hroot : s.topOf owner = some top := by rw [topOf, htree, Option.bind_some, htop]
  rw [StoreM.includes, bind_apply, StoreM.tree_apply htree]
  simp only [htop]
  rw [bind_apply, StoreM.childrenOfKeyword_apply hn, Store.includes, hroot]
  rfl

/-- The owner that a tree gets when it is joined to a module. -/
def joinedOwner (s : Store) (tables : ModelTables) (root : RootId) : RootId → Option RootId :=
  fun r => if r = root then s.joins? tables root else none

/-- A submodule whose module is missing is reported. -/
theorem reportOrphan_logs (hstop : env.stopAt = none) (policy : OrphanPolicy)
    {top belongsTo : NodeId} {n b : Node} (hn : state.store.get? top = some n)
    (hb : state.store.get? belongsTo = some b) :
    Succeeds (reportOrphan env policy top belongsTo n.argument b.argument) state fun _ t =>
      state.Logs (orphanFindings policy top belongsTo n b) t := by
  refine Yields.bind (reportOn_logs hstop hb _ _) fun _ t ht => ?_
  rw [orphanFindings]
  obtain ⟨m, hm, hnm⟩ := ht.store.exists_get? hn
  have hsubject : m.subject (Renaming.refl.node top) = n.subject top := by
    rw [Node.subject, Node.subject, hnm.element]
    rfl
  split
  · refine (reportOn_logs hstop hm _ _).imp fun _ u hu => ?_
    rw [hsubject] at hu
    exact ht.trans hu
  · exact Yields.pure ht

/-- A submodule is joined to its module, and what is missing there is reported. -/
theorem joinModule_spec (hstop : env.stopAt = none) (o : state.store.Owned)
    {owner root : RootId} {top : NodeId} {n : Node} (howner : state.store.Headed owner true)
    (hroot : state.store.Headed root false) (hn : state.store.get? top = some n)
    (name : String) :
    Succeeds (joinModule env owner root top n.argument name) state fun _ t =>
      (state.store.adoptOne root owner).Renamed .refl t.store ∧
        t.log = state.log.addAll (if state.store.includes owner n.argument then []
          else [⟨n.subject top, .orphanSubmodule, notIncludedMessage name⟩]) := by
  obtain ⟨treeO, x, m, hO, hx, hm, hmodule⟩ := howner.exists_tree
  obtain ⟨treeS, y, k, hS, hy, hk, hnot⟩ := hroot.exists_tree
  have hne : owner ≠ root := by
    rintro rfl
    rw [hO] at hS
    cases hS
    rw [hx] at hy
    cases hy
    rw [hm] at hk
    cases hk
    rw [hmodule] at hnot
    cases hnot
  refine Yields.bind (Yields.onStore ((StoreM.linkSubmodule_spec o hne hO hS).and
    (StoreM.linkSubmodule_succeeds o hne hO hS))) ?_
  intro _ t ⟨⟨ht, ot, hslots, htrees⟩, hlog⟩
  have howner' : t.store.Headed owner true :=
    howner.of_extends (Extends.of_slots_eq ot hslots htrees)
  have hincludes : t.store.includes owner n.argument = state.store.includes owner n.argument := by
    have hsame := ht.includes owner n.argument
    rw [Store.adoptOne, includes_adopt] at hsame
    exact hsame
  apply Yields.bind_of_eq (a := state.store.includes owner n.argument) (t := t)
  · rw [onStore_apply, includes_apply howner', hincludes]
  have hn' : t.store.get? top = some n := by rw [get?, hslots, ← get?, hn]
  rw [← hlog]
  split
  · exact Yields.pure ⟨ht, rfl⟩
  · refine (reportOn_logs hstop hn' _ _).imp fun _ u hu => ⟨ht.trans hu.store, hu.log⟩

/-- A submodule is linked to the module that its first `belongs-to` names. -/
theorem linkTree_spec (hstop : env.stopAt = none) (policy : OrphanPolicy)
    (o : state.store.Owned) (h : tables.Headed state.store)
    (hr : r ∈ tables.submodules.values) :
    Succeeds (linkTree env policy tables r) state fun _ t =>
      (state.store.adopt (joinedOwner state.store tables r)).Renamed .refl t.store ∧
        t.log = state.log.addAll (state.store.joinFindings policy tables r) := by
  have hhead := h.submodules r hr
  obtain ⟨tree, top, n, htree, htop, hn, -⟩ := hhead.exists_tree
  have hroot : state.store.topOf r = some top := by rw [topOf, htree, Option.bind_some, htop]
  have hstay : state.store.joins? tables r = none →
      (state.store.adopt (joinedOwner state.store tables r)) = state.store := by
    intro hnone
    have howner : joinedOwner state.store tables r = fun _ => none := funext fun q => by
      rw [joinedOwner, hnone, ite_self]
    rw [howner, adopt_none]
  apply Yields.bind_of_eq (Reading.tree_apply htree)
  rw [htop]
  apply Yields.bind_of_eq (Reading.childrenOfKeyword_apply hn _)
  rw [joinFindings, hroot]
  dsimp only
  rcases hbelongs : state.store.childrenOfKeyword top .belongsTo with _ | ⟨belongsTo, rest⟩
  · have hfirst : state.store.firstOfKeyword top .belongsTo = none := by
      rw [firstOfKeyword, hbelongs]
      rfl
    rw [hfirst, hstay]
    · exact Yields.pure ⟨.refl _, rfl⟩
    · rw [joins?, hroot, Option.bind_some, firstNodeOfKeyword, hfirst]
      rfl
  have hfirst : state.store.firstOfKeyword top .belongsTo = some belongsTo := by
    rw [firstOfKeyword, hbelongs]
    rfl
  have hmem : belongsTo ∈ state.store.childrenOfKeyword top .belongsTo := by
    rw [hbelongs]
    exact List.mem_cons_self
  obtain ⟨b, hb⟩ := contains_iff.mp (o.wired.contains_child (List.mem_of_mem_filter hmem))
  have hjoins : state.store.joins? tables r = tables.modules.find? b.argument := by
    rw [joins?, hroot, Option.bind_some, firstNodeOfKeyword, hfirst, Option.bind_some, hb,
      Option.bind_some]
  refine Yields.bind_of_eq (Reading.node_apply hb) (Yields.bind_of_eq (Reading.node_apply hn) ?_)
  rw [hfirst]
  dsimp only
  rw [hn, hb]
  dsimp only
  rcases howner : tables.modules.find? b.argument with _ | owner
  · rw [hstay (hjoins.trans howner)]
    exact (reportOrphan_logs hstop policy hn hb).imp fun _ t ht => ⟨ht.store, ht.log⟩
  · have hadopt : joinedOwner state.store tables r =
        fun q => if q = r then some owner else none := funext fun q => by
      rw [joinedOwner, hjoins, howner]
    rw [hadopt]
    exact joinModule_spec hstop o (h.modules _ (Roll.mem_values_of_find? howner)) hhead hn _

/-- The owners that some trees get when they are joined to modules. -/
def joinedOwners (s : Store) (tables : ModelTables) (roots : List RootId) :
    RootId → Option RootId :=
  fun r => if r ∈ roots then s.joins? tables r else none

/-- Stores with the same statements have their trees joined to the same owners. -/
theorem joinedOwners_eq {s t : Store} (h : s.Renamed .refl t) (tables : ModelTables)
    (roots : List RootId) : joinedOwners t tables roots = joinedOwners s tables roots := by
  funext r
  rw [joinedOwners, joinedOwners, h.joins?_eq]

/-- The owners of more trees are found one after another, and the last one counts. -/
theorem joinedOwners_cons (s : Store) (tables : ModelTables) (root : RootId)
    (roots : List RootId) :
    joinedOwners s tables (root :: roots) = fun r =>
      (joinedOwners s tables roots r).or (joinedOwner s tables root r) := by
  funext r
  rw [joinedOwners, joinedOwners, joinedOwner]
  by_cases hr : r ∈ roots
  · rw [if_pos hr, if_pos (List.mem_cons_of_mem _ hr)]
    by_cases heq : r = root
    · rw [if_pos heq, heq, Option.or_self]
    · rw [if_neg heq, Option.or_none]
  · rw [if_neg hr, Option.none_or]
    by_cases heq : r = root
    · rw [if_pos heq, if_pos (heq ▸ List.mem_cons_self), heq]
    · rw [if_neg heq, if_neg fun hmem => (List.mem_cons.mp hmem).elim heq hr]

/-- Submodules are linked one after another.  None of them is linked in a different way
because another one was linked before. -/
theorem linkTrees_spec (hstop : env.stopAt = none) (policy : OrphanPolicy) {roots : List RootId}
    (o : state.store.Owned) (h : tables.Headed state.store)
    (hroots : ∀ r ∈ roots, r ∈ tables.submodules.values) :
    Succeeds (roots.forM (linkTree env policy tables)) state fun _ t =>
      (state.store.adopt (joinedOwners state.store tables roots)).Renamed .refl t.store ∧
        t.log = state.log.addAll (roots.flatMap (state.store.joinFindings policy tables)) := by
  induction roots generalizing state with
  | nil =>
    have hnone : joinedOwners state.store tables [] = fun _ => none := by
      funext r
      rw [joinedOwners, if_neg List.not_mem_nil]
    rw [hnone, adopt_none]
    exact Yields.pure ⟨.refl _, rfl⟩
  | cons r rest ih =>
    have hr := hroots r List.mem_cons_self
    refine Yields.bind ((linkTree_spec hstop policy o h hr).and
      (OnlyExtends.linkTree policy o h hr)) ?_
    intro _ t ⟨⟨ht, hlog⟩, hext, _⟩
    refine (ih hext.owned (h.of_extends hext) fun q hq =>
      hroots q (List.mem_cons_of_mem _ hq)).imp fun _ u ⟨hu, hlog'⟩ => ?_
    have hfindings : t.store.joinFindings policy tables =
        state.store.joinFindings policy tables := funext fun q => by
      rw [ht.joinFindings_eq, joinFindings_adopt]
    have howners : joinedOwners t.store tables rest = joinedOwners state.store tables rest := by
      rw [joinedOwners_eq ht]
      funext q
      rw [joinedOwners, joinedOwners, joins?_adopt]
    rw [howners] at hu
    constructor
    · have hadopt := ht.adopt_same (joinedOwners state.store tables rest)
      rw [adopt_adopt, ← joinedOwners_cons] at hadopt
      exact hadopt.trans hu
    · rw [hlog', hlog, hfindings, List.flatMap_cons]
      exact List.foldl_append.symm

/-- What is missing among the includes of all modules is reported. -/
theorem checkModules_logs (hstop : env.stopAt = none) (o : state.store.Owned)
    (h : tables.Headed state.store) :
    Succeeds (tables.modules.values.forM (checkIncludes env tables)) state fun _ t =>
      state.Logs (tables.modules.values.flatMap (state.store.includeFindings tables)) t ∧
        Extends state.store t.store := by
  have hlogs : Succeeds (tables.modules.values.forM (checkIncludes env tables)) state fun _ t =>
      state.Logs (tables.modules.values.flatMap (state.store.includeFindings tables)) t ∧
        t.store.Owned := by
    refine forM_logs o fun r hr t ot ht => ?_
    obtain ⟨x, n, htop, hn, hmodule⟩ := h.modules r hr
    obtain ⟨m, hm, hnm⟩ := ht.exists_get? hn
    have hhead : t.store.Headed r true := by
      refine ⟨x, m, (ht.topOf r).trans ?_, hm, (hnm.isKeyword _).trans hmodule⟩
      rw [htop]
      rfl
    rw [← ht.includeFindings_eq tables r]
    exact checkIncludes_logs hstop ot hhead
  have hextends : OnlyExtends env (tables.modules.values.forM (checkIncludes env tables)) state :=
    OnlyExtends.forM o fun r hr t ht =>
      OnlyExtends.checkIncludes ht.owned ((h.of_extends ht).modules r hr)
  exact (hlogs.and hextends).imp fun _ _ ⟨⟨ht, _⟩, hext, _⟩ => ⟨ht, hext⟩

/-- The findings of linking. -/
def linkingFindings (s : Store) (policy : OrphanPolicy) : List Finding :=
  (ModelTables.ofStore s).modules.values.flatMap (s.includeFindings (ModelTables.ofStore s)) ++
    (ModelTables.ofStore s).submodules.values.flatMap
      (s.joinFindings policy (ModelTables.ofStore s))

/-- Linking finds what is missing and what is not included, and nothing else. -/
theorem kind_of_mem_linkingFindings {s : Store} {policy : OrphanPolicy} {f : Finding}
    (h : f ∈ linkingFindings s policy) : f.kind = .unresolvableInclude ∨
      f.kind = .unresolvableBelongsTo ∨ f.kind = .orphanSubmodule := by
  obtain h | h := List.mem_append.mp h
  · obtain ⟨root, -, h⟩ := List.mem_flatMap.mp h
    rw [includeFindings] at h
    split at h
    · cases h
    obtain ⟨x, -, h⟩ := List.mem_flatMap.mp h
    rw [includeFindingsAt] at h
    grind
  · obtain ⟨root, -, h⟩ := List.mem_flatMap.mp h
    rw [joinFindings] at h
    split at h
    · cases h
    split at h
    · cases h
    split at h
    · split at h
      · rw [orphanFindings] at h
        grind
      · grind
    · cases h

/-- The store after linking, up to its findings. -/
def linked (s : Store) : Store :=
  s.adopt (joinedOwners s (ModelTables.ofStore s) (ModelTables.ofStore s).submodules.values)

/-- Linking leaves behind the owners and the findings that are found from the tops and their
children. -/
theorem linkModules_spec (hstop : env.stopAt = none) (policy : OrphanPolicy)
    (o : state.store.Owned) :
    Succeeds (linkModules env policy) state fun tables t =>
      tables = ModelTables.ofStore state.store ∧
        (linked state.store).Renamed .refl t.store ∧
          t.log = state.log.addAll (linkingFindings state.store policy) := by
  have h := ModelTables.headed_ofStore state.store
  apply Yields.bind_of_eq Reading.store_apply
  refine Yields.bind (checkModules_logs hstop o h) fun _ t ⟨ht, hext⟩ => ?_
  refine Yields.bind (linkTrees_spec hstop policy hext.owned (h.of_extends hext)
    fun _ hr => hr) fun _ u ⟨hu, hlog⟩ => ?_
  have hfindings : t.store.joinFindings policy (ModelTables.ofStore state.store) =
      state.store.joinFindings policy (ModelTables.ofStore state.store) :=
    funext fun q => ht.store.joinFindings_eq policy _ q
  refine Yields.pure ⟨rfl, ?_, ?_⟩
  · rw [joinedOwners_eq ht.store] at hu
    exact (ht.store.adopt_same _).trans hu
  · rw [hlog, ht.log, hfindings]
    exact List.foldl_append.symm

end BuildM

/-! ## Trees with different names -/

namespace ModelTables

/-- What a tree adds to the table of modules or to that of submodules. -/
def entries (s : Store) (isModule : Bool) (root : RootId) : List (String × RootId) :=
  match (s.topOf root).bind s.get? with
  | none => []
  | some n => if n.isKeyword .module = isModule then [(n.argument, root)] else []

/-- Different modules have different names, and so have different submodules. -/
def Named (s : Store) : Prop :=
  ∀ isModule q r, q ≠ r → ∀ e ∈ entries s isModule q, ∀ e' ∈ entries s isModule r, e.1 ≠ e'.1

variable {s : Store} {tables : ModelTables}

/-- A tree with a new name is entered. -/
theorem add_eq {root : RootId} (hmodules : ∀ e ∈ entries s true root, e.1 ∉ tables.modules.keys)
    (hsubmodules : ∀ e ∈ entries s false root, e.1 ∉ tables.submodules.keys) :
    tables.add s root = ⟨tables.modules.writeAll (entries s true root),
      tables.submodules.writeAll (entries s false root)⟩ := by
  have hbind : ((s.tree? root).bind fun t => t.top.bind s.get?) = (s.topOf root).bind s.get? := by
    rw [topOf, Option.bind_assoc]
  rw [add, hbind]
  rcases hn : (s.topOf root).bind s.get? with _ | n
  · have hnone : ∀ isModule, entries s isModule root = [] := fun isModule => by
      rw [entries, hn]
    rw [hnone, hnone]
    rfl
  have hentries : ∀ isModule, n.isKeyword .module = isModule →
      entries s isModule root = [(n.argument, root)] := fun isModule h => by
    rw [entries, hn]
    exact if_pos h
  have hothers : ∀ isModule, n.isKeyword .module ≠ isModule →
      entries s isModule root = [] := fun isModule h => by
    rw [entries, hn]
    exact if_neg h
  dsimp only
  by_cases hmodule : n.isKeyword .module = true
  · rw [hentries true hmodule] at hmodules
    have hnew := Roll.contains_of_not_mem_keys (hmodules _ List.mem_cons_self)
    rw [if_pos hmodule, Roll.insertNew, hnew, if_neg Bool.false_ne_true, hentries true hmodule,
      hothers false (by rw [hmodule]; exact Bool.noConfusion)]
    rfl
  · have hfalse := Bool.not_eq_true _ ▸ hmodule
    rw [hentries false hfalse] at hsubmodules
    have hnew := Roll.contains_of_not_mem_keys (hsubmodules _ List.mem_cons_self)
    rw [if_neg hmodule, Roll.insertNew, hnew, if_neg Bool.false_ne_true, hothers true hmodule,
      hentries false hfalse]
    rfl

/-- Trees with different names are all entered. -/
theorem ofStore_eq (h : Named s) : ofStore s =
    ⟨Roll.ofItems (s.treeIds.flatMap (entries s true)),
      Roll.ofItems (s.treeIds.flatMap (entries s false))⟩ := by
  -- the names of the trees that are left are not in the tables yet
  have hfold : ∀ (roots : List RootId) (tables : ModelTables), roots.Nodup →
      (∀ r ∈ roots, ∀ e ∈ entries s true r, e.1 ∉ tables.modules.keys) →
      (∀ r ∈ roots, ∀ e ∈ entries s false r, e.1 ∉ tables.submodules.keys) →
      roots.foldl (add s) tables = ⟨tables.modules.writeAll (roots.flatMap (entries s true)),
        tables.submodules.writeAll (roots.flatMap (entries s false))⟩ := by
    intro roots
    induction roots with
    | nil => exact fun _ _ _ _ => rfl
    | cons r rest ih =>
      intro tables hnodup hmodules hsubmodules
      obtain ⟨hnot, hnodup⟩ := List.nodup_cons.mp hnodup
      rw [List.foldl_cons, add_eq (hmodules r List.mem_cons_self)
        (hsubmodules r List.mem_cons_self), ih _ hnodup, List.flatMap_cons, List.flatMap_cons,
        Roll.writeAll_append, Roll.writeAll_append]
      · intro q hq e he hmem
        obtain hmem | ⟨v, hv⟩ := Roll.mem_keys_writeAll.mp hmem
        · exact hmodules q (List.mem_cons_of_mem _ hq) e he hmem
        · exact h true r q (fun heq => hnot (heq ▸ hq)) _ hv e he rfl
      · intro q hq e he hmem
        obtain hmem | ⟨v, hv⟩ := Roll.mem_keys_writeAll.mp hmem
        · exact hsubmodules q (List.mem_cons_of_mem _ hq) e he hmem
        · exact h false r q (fun heq => hnot (heq ▸ hq)) _ hv e he rfl
  refine hfold s.treeIds {} (Renamed.nodup_treeIds s) ?_ ?_ <;>
  · intro r _ e _ hmem
    cases hmem

variable {f : Renaming} {a b : Store}

/-- A renamed tree is entered under the same name. -/
theorem entries_renamed (h : a.Renamed f b) (isModule : Bool) (root : RootId) :
    entries b isModule (f.tree root) =
      (entries a isModule root).map (Prod.map id f.tree) := by
  rw [entries, entries, h.topOf]
  rcases a.topOf root with _ | top
  · rfl
  simp only [Option.map_some, Option.bind_some]
  rcases hn : a.get? top with _ | n
  · rw [h.get?_eq_none hn]
    rfl
  · obtain ⟨m, hm, hnm⟩ := h.exists_get? hn
    rw [hm]
    dsimp only
    rw [hnm.isKeyword, hnm.argument]
    split <;> rfl

/-- Different trees have different names in the renamed store, too. -/
theorem Named.of_renamed (hnamed : Named a) (h : a.Renamed f b) : Named b := by
  intro isModule q' r' hne e he e' he'
  obtain ⟨q, rfl⟩ := f.tree.surjective q'
  obtain ⟨r, rfl⟩ := f.tree.surjective r'
  rw [entries_renamed h] at he he'
  obtain ⟨d, hd, rfl⟩ := List.mem_map.mp he
  obtain ⟨d', hd', rfl⟩ := List.mem_map.mp he'
  exact hnamed isModule q r (fun heq => hne (heq ▸ rfl)) d hd d' hd'

/-- The tables of trees with different names are the same under new numbers. -/
theorem ofStore_renamed (h : a.Renamed f b) (hnamed : Named a) :
    Renamed f (ofStore a) (ofStore b) := by
  have hperm : ∀ isModule, (Roll.ofItems (b.treeIds.flatMap (entries b isModule))).entries.Perm
      ((Roll.ofItems (a.treeIds.flatMap (entries a isModule))).entries.map
        (Prod.map id f.tree)) := by
    intro isModule
    refine Roll.perm_ofItems h.perm_treeIds (fun q _ => entries_renamed h isModule q) ?_
    exact (Store.Renamed.nodup_treeIds a).imp fun hne => hnamed isModule _ _ hne
  have hvalues : ∀ isModule,
      ((Roll.ofItems (a.treeIds.flatMap (entries a isModule))).values.map f.tree).Perm
        (Roll.ofItems (b.treeIds.flatMap (entries b isModule))).values := by
    intro isModule
    refine List.Perm.trans (List.Perm.of_eq ?_) ((hperm isModule).map (·.2)).symm
    rw [Roll.values, List.map_map, List.map_map]
    rfl
  rw [ofStore_eq hnamed, ofStore_eq (hnamed.of_renamed h)]
  exact ⟨Roll.find?_of_perm (hperm true) (Roll.nodup_keys_ofItems _),
    Roll.find?_of_perm (hperm false) (Roll.nodup_keys_ofItems _), hvalues true, hvalues false⟩

end ModelTables

/-! ## Linking under new numbers -/

namespace BuildM

variable {f : Renaming} {a b : Store}

/-- Renamed stores stay renamed when they are linked. -/
theorem linked_renamed (h : a.Renamed f b) (hnamed : ModelTables.Named a) :
    (linked a).Renamed f (linked b) := by
  have htables := ModelTables.ofStore_renamed h hnamed
  refine h.adopt fun r => ?_
  have hmem : f.tree r ∈ (ModelTables.ofStore b).submodules.values ↔
      r ∈ (ModelTables.ofStore a).submodules.values := by
    rw [← htables.perm_submodules.mem_iff, List.mem_map_of_injective f.tree.injective]
  rw [joinedOwners, joinedOwners, h.joins? htables]
  by_cases hr : r ∈ (ModelTables.ofStore a).submodules.values
  · rw [if_pos hr, if_pos (hmem.mpr hr)]
  · rw [if_neg hr, if_neg fun hr' => hr (hmem.mp hr')]
    rfl

/-- Linking renamed stores finds the same, renamed. -/
theorem mem_linkingFindings (h : a.Renamed f b) (hnamed : ModelTables.Named a)
    (policy : OrphanPolicy) (g : Finding) :
    g.rename f ∈ linkingFindings b policy ↔ g ∈ linkingFindings a policy := by
  have htables := ModelTables.ofStore_renamed h hnamed
  have hperm : (linkingFindings b policy).Perm
      ((linkingFindings a policy).map (Finding.rename f)) := by
    rw [linkingFindings, linkingFindings, List.map_append, List.map_flatMap, List.map_flatMap]
    refine List.Perm.append ?_ ?_
    · refine (htables.perm_modules.symm.flatMap_right _).trans (List.Perm.of_eq ?_)
      rw [List.flatMap_map]
      exact List.flatMap_congr fun r _ => h.includeFindings htables r
    · refine (htables.perm_submodules.symm.flatMap_right _).trans (List.Perm.of_eq ?_)
      rw [List.flatMap_map]
      exact List.flatMap_congr fun r _ => h.joinFindings htables policy r
  rw [hperm.mem_iff, List.mem_map_of_injective (Finding.rename_injective f)]

end BuildM
end StatementForest
