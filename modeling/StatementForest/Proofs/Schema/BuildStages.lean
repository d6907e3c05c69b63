import StatementForest.Proofs.Schema.DefinitionPrecedence
import StatementForest.Proofs.Feature.PruningResult

/-!
# The stages of a build

When a build ends with a schema, the documents were merged into one store, and that store has
gone through the same stages each time: its trees were joined, its statements got their
attributes, findings about features were recorded, what depends on missing features was taken
out, and findings about identities were recorded.  A build that might have stopped early ends
with the schema of one that never does, and goes through the same stages.

Main results:

- Theorem `BuildM.resolve_stages`: the stages after merging.
- Theorem `Schema.exists_stages`: every schema that is built has gone through them.
- Theorem `Stages.alike`: without pruning a schema holds the statements that were merged.
-/

namespace StatementForest

open Store

/-! ## The same statements -/

/-- The second store holds the same statements as the first one, with the same links.  Nothing is
said of its trees. -/
def Store.Alike (s t : Store) : Prop := Parallel { s with trees := t.trees } t

namespace Store.Alike

variable {s t u : Store} {x y : NodeId}

/-- Stores with the same links hold the same statements. -/
theorem of_parallel (h : Parallel s t) : s.Alike t where
  size := h.size
  parentOf := h.parentOf
  childrenOf := h.childrenOf
  rootOf := h.rootOf
  faceOf := h.faceOf
  trees := rfl

/-- Stores with the same slots hold the same statements. -/
theorem of_slots_eq (h : t.slots = s.slots) : s.Alike t := by
  have hsame : ({ s with trees := t.trees } : Store) = t := by
    obtain ⟨slots, trees⟩ := t
    cases h
    rfl
  rw [Alike, hsame]
  exact .refl t

/-- Renaming a store by its own numbers keeps the statements that it holds. -/
theorem of_renamed (h : s.Renamed .refl t) : s.Alike t := by
  have hbare : ∀ {β : Type} (w : Node → β), (∀ n, w n.bare = w n) →
      ∀ x, (t.get? x).map w = (s.get? x).map w := by
    intro β w hw x
    refine h.map_get? (fun n m hnm => ?_) x
    rw [← hw m, hnm.bare_eq, Node.rename_refl, hw]
  exact {
    size := h.size
    parentOf x := (h.parentOf x).trans (congrFun Option.map_id _)
    childrenOf x := (h.childrenOf x).trans (List.map_id _)
    rootOf := hbare Node.root fun _ => rfl
    faceOf := hbare Node.face fun _ => rfl
    trees := rfl }

theorem trans (h : s.Alike t) (h' : t.Alike u) : s.Alike u :=
  Parallel.trans (t := { t with trees := u.trees })
    ⟨h.size, h.parentOf, h.childrenOf, h.rootOf, h.faceOf, rfl⟩ h'

/-- A statement is the same thing in the second store. -/
theorem exists_get? (h : s.Alike t) {n : Node} (hn : s.get? x = some n) :
    ∃ m, t.get? x = some m ∧ m.face = n.face := Parallel.exists_get? h hn

theorem contains (h : s.Alike t) (x : NodeId) : t.contains x = s.contains x := Parallel.contains h x

/-- A statement of the second store is one of the first store. -/
theorem exists_get?_left (h : s.Alike t) {m : Node} (hm : t.get? x = some m) :
    ∃ n, s.get? x = some n ∧ m.face = n.face := by
  obtain ⟨n, hn⟩ := contains_iff.mp ((h.contains x).symm.trans (contains_iff.mpr ⟨m, hm⟩))
  obtain ⟨m', hm', hface⟩ := h.exists_get? hn
  cases hm.symm.trans hm'
  exact ⟨n, hn, hface⟩

theorem childrenOfKeyword (h : s.Alike t) (x : NodeId) (k : Keyword) :
    t.childrenOfKeyword x k = s.childrenOfKeyword x k := Parallel.childrenOfKeyword h x k

theorem firstOfKeyword (h : s.Alike t) (x : NodeId) (k : Keyword) :
    t.firstOfKeyword x k = s.firstOfKeyword x k := by
  rw [Store.firstOfKeyword, Store.firstOfKeyword, h.childrenOfKeyword]

theorem below_iff (h : s.Alike t) : t.Below x y ↔ s.Below x y :=
  below_congr fun z _ => h.parentOf z

end Store.Alike

namespace Store.Renamed

variable {a b : Store}

/-- The tops are the same under their own numbers. -/
theorem topOf_eq (h : Renamed .refl a b) (r : RootId) : b.topOf r = a.topOf r :=
  (h.topOf r).trans (congrFun Option.map_id _)

/-- The owners are the same under their own numbers. -/
theorem ownerOf_eq (h : Renamed .refl a b) (r : RootId) : b.ownerOf r = a.ownerOf r :=
  (h.ownerOf r).trans (congrFun Option.map_id _)

end Store.Renamed

/-! ## What is found about features and identities -/

/-- A finding is about a `base` statement. -/
def Store.IsOnBase (s : Store) (f : Finding) : Prop :=
  ∃ x n, s.get? x = some n ∧ n.isKeyword .base = true ∧ f.node? = some x

/-- A finding about a `base` statement is about one after renaming, too. -/
theorem Store.IsOnBase.of_renamed {s t : Store} {f : Finding} (h : s.Renamed .refl t)
    (hf : s.IsOnBase f) : t.IsOnBase f := by
  obtain ⟨x, n, hn, hbase, hx⟩ := hf
  obtain ⟨m, hm, hnm⟩ := h.exists_get? hn
  exact ⟨x, m, hm, (hnm.isKeyword _).trans hbase, hx⟩

/-- Deciding on support finds that features cannot be supported, and nothing else. -/
theorem FeatureRegistry.kind_of_mem_support {r : FeatureRegistry}
    {request : Option (List String)} {f : Finding} (h : f ∈ (r.support request).2) :
    f.kind = .featureCannotBeSupported := by
  obtain ⟨e, -, rfl⟩ := List.mem_map.mp h
  rfl

/-- A base whose qualifier is not bound is blamed for it. -/
theorem IdentityCollection.isOnBase_of_mem_unresolvedOf {s : Store} {root : RootId} {f : Finding}
    (h : f ∈ unresolvedOf s root) : s.IsOnBase f := by
  obtain ⟨d, -, h⟩ := List.mem_flatMap.mp h
  obtain ⟨outcome, houtcome, h⟩ := List.mem_filterMap.mp h
  obtain ⟨b, hb, hresolve⟩ := List.mem_filterMap.mp houtcome
  obtain ⟨n, hn, rfl⟩ := Option.map_eq_some_iff.mp hresolve
  have hkeyword := (List.mem_filter.mp hb).2
  rw [hn, Option.any_some] at hkeyword
  refine ⟨b, n, hn, hkeyword, ?_⟩
  rcases herror : resolveBase d.2.element.scope.home b n with g | use <;> rw [herror] at h
  · cases h
    rw [resolveBase] at herror
    split at herror
    · cases herror
    · split at herror <;> cases herror
      rfl
  · cases h

/-- Freezing finds missing bases and cycles, and nothing else. -/
theorem IdentityRegistry.kind_of_mem_findings {r : IdentityRegistry} {f : Finding}
    (h : f ∈ r.findings) : f.kind ≠ .unresolvablePrefix := by
  intro hkind
  obtain h | h := List.mem_append.mp h
  · obtain ⟨use, -, rfl⟩ := List.mem_map.mp h
    cases hkind
  · obtain ⟨cycle, -, h⟩ := List.mem_filterMap.mp h
    simp only [cycleFinding?, bind, Option.bind_eq_some_iff] at h
    obtain ⟨first, -, e, -, h⟩ := h
    cases h
    cases hkind

/-! ## Stages -/

/-- The stores that a schema went through after its documents were merged. -/
structure Stages (c : Configuration) (merged : BuildState) (schema : Schema) where
  /-- The trees have been joined. -/
  joined : Store
  /-- The statements have got their attributes. -/
  attributesAssigned : Store
  /-- Findings about features have been recorded. -/
  judged : Store
  /-- Statements that depend on missing features have been taken out. -/
  pruned : Store
  /-- What pruning has found. -/
  found : List Finding
  tables : schema.tables = ModelTables.ofStore merged.store
  joins : (BuildM.linked merged.store).Renamed .refl joined
  owned_joined : joined.Owned
  dresses : StoreM.AttributesAssigned joined.treeIds joined attributesAssigned
  callsRightly : attributesAssigned.Renamed .refl judged
  owned_judged : judged.Owned
  prunes : FeatureRegistry.Pruned schema.features (if c.prunes then judged.tops else []) judged
    pruned found
  owned_pruned : pruned.Owned
  ends : pruned.Renamed .refl schema.store
  /-- Linking has been reported on, then the support of features, pruning and identities. -/
  log : ∃ before after, schema.log = merged.log.addAll
      (BuildM.linkingFindings merged.store c.orphans ++ (before ++ (found ++ after))) ∧
    (∀ f ∈ before, f.kind = .featureCannotBeSupported) ∧
    ∀ f ∈ after, f.kind = .unresolvablePrefix → schema.store.IsOnBase f

/-! ## What follows merging -/

namespace BuildM

variable {env : Environment} {state : BuildState}

/-- Features are collected, findings about them are recorded, and the tops of all trees are
pruned when this is asked for. -/
theorem resolveFeatures_stages (hstop : env.stopAt = none) (c : Configuration)
    (o : state.store.Owned) : Succeeds (resolveFeatures env c) state fun r t =>
      ∃ judged pruned found, state.store.Renamed .refl judged ∧ judged.Owned ∧
        FeatureRegistry.Pruned r (if c.prunes then judged.tops else []) judged pruned found ∧
        pruned.Owned ∧ pruned.Renamed .refl t.store ∧ t.store.Owned ∧
        ∃ before, (∀ f ∈ before, f.kind = .featureCannotBeSupported) ∧
          t.log = state.log.addAll (before ++ found) := by
  have hcollect : onStore (StoreM.query (FeatureRegistry.ofTrees · state.store.treeIds)) state =
      (.ok { entries := FeatureRegistry.known state.store }, state) := by
    rw [onStore_apply, query_apply, FeatureRegistry.ofTrees_eq o]
  refine Yields.bind_of_eq Reading.store_apply (Yields.bind_of_eq hcollect ?_)
  refine Yields.bind ((reportAll_logs hstop _).and (OnlyExtends.reportAll o _)) ?_
  intro _ t ⟨ht, hext, _⟩
  have ot := hext.owned
  obtain ⟨before, hbefore, ht⟩ : ∃ before, (∀ f ∈ before, f.kind = .featureCannotBeSupported) ∧
      state.Logs before t := ⟨_, fun _ => FeatureRegistry.kind_of_mem_support, ht⟩
  by_cases hprunes : c.prunes = true
  · rw [if_pos hprunes, ← ht.store.treeIds_eq]
    simp only [if_pos hprunes]
    have hroots : ∀ q ∈ t.store.treeIds, ∃ tree, t.store.tree? q = some tree := fun q hq =>
      exists_tree_of_mem_treeIds hq
    refine Yields.bind (Yields.onStore ((FeatureRegistry.pruneTrees_spec ot hroots
      (Renamed.nodup_treeIds _)).and (FeatureRegistry.pruneTrees_succeeds ot _))) ?_
    intro found u ⟨⟨hpruned, hthin⟩, hlog⟩
    refine Yields.bind ((reportAll_logs hstop _).and (OnlyExtends.reportAll hthin.owned _)) ?_
    intro _ v ⟨hv, hext', _⟩
    refine Yields.pure ⟨t.store, u.store, found, ht.store, ot, hpruned, hthin.owned, hv.store,
      hext'.owned, before, hbefore, ?_⟩
    rw [hv.log, hlog, ht.log]
    exact List.foldl_append.symm
  · rw [if_neg hprunes]
    simp only [if_neg hprunes]
    refine Yields.pure ⟨t.store, t.store, [], ht.store, ot, .nil, ot, .refl _, ot, before,
      hbefore, ?_⟩
    rw [List.append_nil, ht.log]

/-- The stages after merging. -/
theorem resolve_stages (hstop : env.stopAt = none) (c : Configuration) (o : state.store.Owned) :
    Succeeds (resolve env c) state fun result t =>
      Nonempty (Stages c state ⟨t.store, t.log, result.1, result.2.1, result.2.2⟩) := by
  refine Yields.bind ((linkModules_spec hstop c.orphans o).and
    (OnlyExtends.linkModules c.orphans o))
    fun _ t ⟨⟨htables, ht, hlog⟩, hext, _⟩ => ?_
  have ot := hext.owned
  refine Yields.bind (Yields.onStore (StoreM.applyAttributes_spec ot)) fun _ u ⟨hu, hulog⟩ => ?_
  have ou := ot.of_parallel hu.parallel
  refine Yields.bind (resolveFeatures_stages hstop c ou) fun r v hv => ?_
  obtain ⟨judged, pruned, found, hjudged, ojudged, hpruned, opruned, hv, ov, before, hbefore,
    hvlog⟩ := hv
  refine Yields.bind (resolveIdentities_collected hstop ov) fun q w ⟨_, hw⟩ => ?_
  obtain ⟨after, hafter, hw⟩ : ∃ after,
      (∀ f ∈ after, f.kind = .unresolvablePrefix → w.store.IsOnBase f) ∧ v.Logs after w := by
    refine ⟨_, fun f hf hkind => ?_, hw⟩
    obtain hf | hf := List.mem_append.mp hf
    · obtain ⟨root, -, hf⟩ := List.mem_flatMap.mp hf
      exact (IdentityCollection.isOnBase_of_mem_unresolvedOf hf).of_renamed hw.store
    · exact absurd hkind (IdentityRegistry.kind_of_mem_findings hf)
  refine Yields.pure ⟨t.store, u.store, judged, pruned, found, htables, ht, ot, hu, hjudged,
    ojudged, hpruned, opruned, hv.trans hw.store, before, after, ?_, hbefore, hafter⟩
  rw [hw.log, hvlog, hulog, hlog]
  simp only [FindingLog.addAll, List.foldl_append]

end BuildM

/-! ## Schemas -/

namespace Schema

variable {c : Configuration} {grammar : Grammar} {suppliers : Suppliers}
  {documents : List SchemaDocument} {schema : Schema}

/-- The trees of a schema are those of its documents. -/
theorem treesOf_of_build (hbuild : build c grammar suppliers documents = .ok schema) :
    TreesOf documents schema.store := by
  obtain ⟨_, hstopped, -⟩ | ⟨full, hfull, hstand⟩ :=
    treesOf_of_valid (validate_of_build hbuild) grammar suppliers documents
  · rw [hbuild] at hstopped
    cases hstopped
  · rw [hbuild] at hfull
    cases hfull
    exact hstand

/-- A build that ends with a schema merges its documents into a sound state, which then goes
through all stages. -/
theorem exists_stages (hbuild : build c grammar suppliers documents = .ok schema) :
    ∃ merged, merged = gather { grammar, suppliers } c.policy { log := FindingLog.empty c.policy }
        documents ∧
      ofResolved (BuildM.resolve { grammar, suppliers } c merged) = .ok schema ∧
      Sound suppliers documents merged ∧ TreesOf documents schema.store ∧
      Nonempty (Stages c merged schema) := by
  obtain ⟨merged, hmerged⟩ : ∃ merged, merged = gather { grammar, suppliers } c.policy
    { log := FindingLog.empty c.policy } documents := ⟨_, rfl⟩
  have hstop : ({ grammar, suppliers } : Environment).stopAt = none := rfl
  have hsound : Sound suppliers documents merged := by
    rw [hmerged]
    exact gather_sound hstop c.policy (sound_empty suppliers c.policy) documents
  have hmerge : merge { grammar, suppliers } c.policy documents = .ok merged := by
    rw [hmerged]
    exact merge_eq_gather hstop c.policy documents
  have hvalid := validate_of_build hbuild
  have hsteady := build_steady hbuild
  rw [build_of_valid (c := { c with failFast := none }) hvalid] at hsteady
  change (merge { grammar, suppliers } c.policy documents).bind
    (fun state => ofResolved (BuildM.resolve { grammar, suppliers } c state)) = .ok schema
    at hsteady
  rw [hmerge] at hsteady
  refine ⟨merged, hmerged, hsteady, hsound, treesOf_of_build hbuild, ?_⟩
  have hresolve := BuildM.resolve_stages hstop c hsound.treesOf.owned
  unfold Succeeds Yields at hresolve
  simp only [Except.bind] at hsteady
  rcases hrun : BuildM.resolve { grammar, suppliers } c merged with ⟨e | result, t⟩ <;>
    rw [hrun] at hresolve hsteady
  · exact hresolve.elim
  · cases hsteady
    exact hresolve

end Schema

/-! ## What stands in a schema -/

namespace Stages

variable {c : Configuration} {merged : BuildState} {schema : Schema}
  (stages : Stages c merged schema)

include stages

/-- Joining modules keeps the statements. -/
theorem alike_joined : merged.store.Alike stages.joined :=
  (Alike.of_slots_eq (t := BuildM.linked merged.store) rfl).trans (.of_renamed stages.joins)

/-- Judging conditions keeps the statements. -/
theorem alike_judged : merged.store.Alike stages.judged :=
  stages.alike_joined.trans
    ((Alike.of_parallel stages.dresses.parallel).trans (.of_renamed stages.callsRightly))

/-- Joining modules keeps the tops. -/
theorem topOf_joined (r : RootId) : stages.joined.topOf r = merged.store.topOf r := by
  rw [stages.joins.topOf_eq, BuildM.linked, topOf_adopt]

/-- Judging conditions keeps the tops. -/
theorem topOf_judged (r : RootId) : stages.judged.topOf r = merged.store.topOf r := by
  rw [stages.callsRightly.topOf_eq, stages.dresses.parallel.topOf, stages.topOf_joined]

/-- The trees of a schema have the tops that they were merged with. -/
theorem topOf (r : RootId) : schema.store.topOf r = merged.store.topOf r := by
  have hpruned : stages.pruned.topOf r = stages.judged.topOf r := by
    rw [Store.topOf, Store.topOf, tree?, tree?, stages.prunes.trees]
  rw [stages.ends.topOf_eq, hpruned, stages.topOf_judged]

/-- Linking alone decides about owners. -/
theorem ownerOf (r : RootId) :
    schema.store.ownerOf r = (BuildM.linked merged.store).ownerOf r := by
  have hpruned : stages.pruned.ownerOf r = stages.judged.ownerOf r := by
    rw [Store.ownerOf, Store.ownerOf, tree?, tree?, stages.prunes.trees]
  have hdressed : stages.attributesAssigned.ownerOf r = stages.joined.ownerOf r := by
    rw [Store.ownerOf, Store.ownerOf, tree?, tree?, stages.dresses.parallel.trees]
  rw [stages.ends.ownerOf_eq, hpruned, stages.callsRightly.ownerOf_eq, hdressed,
    stages.joins.ownerOf_eq]

/-- What was recorded while documents were merged stays recorded. -/
theorem mem_log_of_merged {f : Finding} (h : f ∈ merged.log.entries) :
    f ∈ schema.log.entries := by
  obtain ⟨before, after, hlog, -⟩ := stages.log
  rw [hlog]
  exact FindingLog.mem_addAll.mpr (.inl h)

/-- No statement is new. -/
theorem contains_merged {x : NodeId} (hx : schema.store.contains x = true) :
    merged.store.contains x = true := by
  rw [← stages.alike_judged.contains]
  refine stages.prunes.contains_of_contains ?_
  rw [← (Alike.of_renamed stages.ends).contains, hx]

/-- No stage after merging changes what a statement is. -/
theorem exists_merged {x : NodeId} {n : Node} (hn : schema.store.get? x = some n) :
    ∃ m, merged.store.get? x = some m ∧ n.face = m.face := by
  obtain ⟨p, hp, hnp⟩ := (Alike.of_renamed stages.ends).exists_get?_left hn
  obtain ⟨q, children, data, hq, hpruned⟩ :=
    stages.prunes.exists_get? stages.owned_judged.wired (contains_iff.mpr ⟨p, hp⟩)
  cases hp.symm.trans hpruned
  obtain ⟨m, hm, hqm⟩ := stages.alike_judged.exists_get?_left hq
  exact ⟨m, hm, hnp.trans hqm⟩

/-- Without pruning a schema holds the statements that were merged. -/
theorem alike (hprunes : c.prunes = false) : merged.store.Alike schema.store := by
  have hpruned := stages.prunes
  rw [hprunes, if_neg Bool.false_ne_true] at hpruned
  have hsame : stages.judged.Alike stages.pruned := by
    have hget : ∀ x, stages.pruned.get? x = stages.judged.get? x := fun x =>
      hpruned.get?_of_not_below fun d hd => by cases hd
    rw [Store.eq_of_get? hpruned.size hpruned.trees hget]
    exact .of_slots_eq rfl
  exact stages.alike_judged.trans (hsame.trans (.of_renamed stages.ends))

end Stages
end StatementForest
