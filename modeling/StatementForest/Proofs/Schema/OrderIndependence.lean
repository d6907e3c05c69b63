import StatementForest.Proofs.Identity.FreezeOrder
import StatementForest.Proofs.Schema.SeparateDocuments
import StatementForest.Proofs.Feature.SupportOrder

/-!
# Schemas of documents in another order

The steps that follow merging are run on two states that differ in their numbers only, side
by side.  Each step ends with states that still do.  So documents in another order give the
same schema under new numbers, as long as no two of them define the same.

Main results:

- Theorem `RunsPaired.bind`: two runs side by side, step by step.
- Theorem `BuildM.resolve_renamedStates`: what follows merging does not depend on numbers.
- Theorem `Schema.build_perm`: the order of the documents does not matter.

Current gaps:

- No two documents define the same.  Which of several definitions counts is stated in the module
  on the precedence of definitions, for each order on its own.
-/

namespace StatementForest

open Store

/-! ## Two runs side by side -/

/-- Two operations both end with a result, and the results and the states that are left are
related. -/
def RunsPaired {α : Type} (m m' : BuildM α) (a b : BuildState)
    (Q : α → BuildState → α → BuildState → Prop) : Prop :=
  ∃ x t y u, m a = (.ok x, t) ∧ m' b = (.ok y, u) ∧ Q x t y u

namespace RunsPaired

variable {α β : Type} {a b : BuildState} {m m' : BuildM α}
  {Q : α → BuildState → α → BuildState → Prop}

/-- Two steps that succeed with related results run side by side. -/
theorem of {P P' : α → BuildState → Prop} (h : Succeeds m a P) (h' : Succeeds m' b P')
    (hQ : ∀ x t y u, P x t → P' y u → Q x t y u) : RunsPaired m m' a b Q := by
  obtain ⟨x, t, hm, hP⟩ := h.exists_result
  obtain ⟨y, u, hm', hP'⟩ := h'.exists_result
  exact ⟨x, t, y, u, hm, hm', hQ x t y u hP hP'⟩

/-- Returning related values runs side by side. -/
theorem pure {x y : α} (h : Q x a y b) : RunsPaired (pure x) (pure y) a b Q :=
  ⟨x, a, y, b, rfl, rfl, h⟩

/-- Two runs side by side, step by step. -/
theorem bind {f f' : α → BuildM β} {R : β → BuildState → β → BuildState → Prop}
    (h : RunsPaired m m' a b Q) (hf : ∀ x t y u, Q x t y u → RunsPaired (f x) (f' y) t u R) :
    RunsPaired (m >>= f) (m' >>= f') a b R := by
  obtain ⟨x, t, y, u, hm, hm', hQ⟩ := h
  obtain ⟨z, v, w, s, hf, hf', hR⟩ := hf x t y u hQ
  refine ⟨z, v, w, s, ?_, ?_, hR⟩
  · rw [bind_apply, hm]
    exact hf
  · rw [bind_apply, hm']
    exact hf'

/-- What follows on steps with known results runs side by side when it does with these. -/
theorem bind_of_eq {f f' : α → BuildM β} {R : β → BuildState → β → BuildState → Prop}
    {x y : α} {t u : BuildState} (hm : m a = (.ok x, t)) (hm' : m' b = (.ok y, u))
    (hf : RunsPaired (f x) (f' y) t u R) : RunsPaired (m >>= f) (m' >>= f') a b R :=
  bind (Q := fun x' t' y' u' => x' = x ∧ t' = t ∧ y' = y ∧ u' = u)
    ⟨x, t, y, u, hm, hm', rfl, rfl, rfl, rfl⟩ fun _ _ _ _ ⟨hx, ht, hy, hu⟩ => by
      rwa [hx, ht, hy, hu]

end RunsPaired

/-! ## States that differ in their numbers -/

/-- A top has a top as its counterpart. -/
theorem Store.Renamed.mem_tops {f : Renaming} {a b : Store} (h : a.Renamed f b) (x : NodeId) :
    f.node x ∈ b.tops ↔ x ∈ a.tops := by
  have hperm : b.tops.Perm (a.tops.map f.node) := by
    refine (h.perm_treeIds.symm.filterMap _).trans (List.Perm.of_eq ?_)
    rw [List.filterMap_map, tops, List.map_filterMap]
    exact List.filterMap_congr fun r _ => h.topOf r
  rw [hperm.mem_iff, List.mem_map_of_injective f.node.injective]

/-- Stores under the same numbers have the same trees. -/
theorem Store.Renamed.treeIds_eq {a b : Store} (h : a.Renamed .refl b) :
    b.treeIds = a.treeIds := by
  rw [treeIds, treeIds, h.size_trees]

/-- Two states that differ in their numbers only, whose trees define different features and
identities. -/
structure RenamedStates (f : Renaming) (a b : BuildState) : Prop where
  renamed : a.Renamed f b
  owned : a.store.Owned
  owned' : b.store.Owned
  feature : a.store.Apart .feature
  identity : a.store.Apart .identity

/-- Both registries have the same features, and support the same. -/
structure FeatureRegistry.Renamed (f : Renaming) (r q : FeatureRegistry) : Prop where
  entries : q.entries.entries.Perm (r.entries.entries.map (Prod.map id (FeatureEntry.rename f)))
  supported : q.supported.Perm r.supported

/-- Both registries have the same identities in the same order, derived from each other in
the same way. -/
structure IdentityRegistry.Renamed (f : Renaming) (r q : IdentityRegistry) : Prop where
  entries : q.entries = r.entries.map (IdentityEntry.rename f)
  graph : q.graph = r.graph
  cycles : q.cycles = r.cycles

namespace RenamedStates

variable {f : Renaming} {a b a' b' : BuildState} {gone gone' : NodeId → Prop}

/-- Renamed states stay renamed when the same statements are taken out of both. -/
theorem thinned (h : RenamedStates f a b) (hrenamed : a'.Renamed f b')
    (ha : Thinned a.store a'.store gone) (hb : Thinned b.store b'.store gone') :
    RenamedStates f a' b' where
  renamed := hrenamed
  owned := ha.owned
  owned' := hb.owned
  feature := h.feature.of_thinned h.owned.wired ha
  identity := h.identity.of_thinned h.owned.wired ha

/-- Recording the same findings, renamed, leaves renamed states. -/
theorem logs (h : RenamedStates f a b) {findings findings' : List Finding} (oa : a'.store.Owned)
    (ob : b'.store.Owned) (ha : a.Logs findings a') (hb : b.Logs findings' b')
    (hmem : ∀ g : Finding, g.rename f ∈ findings' ↔ g ∈ findings) : RenamedStates f a' b' where
  renamed := h.renamed.logs ha hb hmem
  owned := oa
  owned' := ob
  feature := h.feature.of_renamed ha.store
  identity := h.identity.of_renamed ha.store

end RenamedStates

/-- A step that leaves the log as it is keeps states the same. -/
theorem BuildState.Renamed.of_log_eq {f : Renaming} {a b a' b' : BuildState}
    (h : a.Renamed f b) (hstore : a'.store.Renamed f b'.store) (ha : a'.log = a.log)
    (hb : b'.log = b.log) : a'.Renamed f b' where
  store := hstore
  policy := by rw [ha, hb, h.policy]
  mem_log g := by rw [ha, hb, h.mem_log]

namespace BuildM

variable {env : Environment} {f : Renaming} {a b : BuildState}

/-! ## Step by step -/

/-- Reporting the same findings, renamed, keeps the states the same up to their numbers. -/
theorem reportAll_renamedStates (hstop : env.stopAt = none) (h : RenamedStates f a b)
    {findings findings' : List Finding}
    (hmem : ∀ g : Finding, g.rename f ∈ findings' ↔ g ∈ findings) :
    RunsPaired (reportAll env findings) (reportAll env findings') a b fun _ t _ u =>
      RenamedStates f t u ∧ t.store.treeIds = a.store.treeIds ∧
        u.store.treeIds = b.store.treeIds := by
  refine RunsPaired.of ((reportAll_logs hstop findings).and
    (OnlyExtends.reportAll h.owned findings))
    ((reportAll_logs hstop findings').and (OnlyExtends.reportAll h.owned' findings')) ?_
  rintro _ t _ u ⟨ht, hext, -⟩ ⟨hu, hext', -⟩
  exact ⟨h.logs hext.owned hext'.owned ht hu hmem, ht.store.treeIds_eq, hu.store.treeIds_eq⟩

/-- Trees with different names are linked in the same way. -/
theorem linkModules_renamedStates (hstop : env.stopAt = none) (policy : OrphanPolicy)
    (h : RenamedStates f a b) (hnamed : ModelTables.Named a.store) :
    RunsPaired (linkModules env policy) (linkModules env policy) a b fun tables t tables' u =>
      tables.Renamed f tables' ∧ RenamedStates f t u := by
  refine RunsPaired.of
    ((linkModules_spec hstop policy h.owned).and (OnlyExtends.linkModules policy h.owned))
    ((linkModules_spec hstop policy h.owned').and (OnlyExtends.linkModules policy h.owned')) ?_
  rintro _ t _ u ⟨⟨rfl, ht, hlog⟩, hext, -⟩ ⟨⟨rfl, hu, hlog'⟩, hext', -⟩
  have hstore := (linked_renamed h.renamed.store hnamed).congr ht hu
  refine ⟨ModelTables.ofStore_renamed h.renamed.store hnamed, ?_, hext.owned, hext'.owned, ?_, ?_⟩
  · exact h.renamed.add_findings hstore hlog hlog'
      (mem_linkingFindings h.renamed.store hnamed policy)
  · exact (h.feature.adopt _).of_renamed ht
  · exact (h.identity.adopt _).of_renamed ht

/-- Statements get the same attributes. -/
theorem applyAttributes_renamedStates (h : RenamedStates f a b) :
    RunsPaired (onStore StoreM.applyAttributes) (onStore StoreM.applyAttributes) a b fun _ t _ u =>
      RenamedStates f t u := by
  refine RunsPaired.of (Yields.onStore (StoreM.applyAttributes_spec h.owned))
    (Yields.onStore (StoreM.applyAttributes_spec h.owned')) ?_
  rintro _ t _ u ⟨ht, hlog⟩ ⟨hu, hlog'⟩
  have hstore := h.renamed.store.attributesAssigned h.owned ht hu
  have hthin : Thinned a.store t.store fun _ => False := Thinned.of_parallel h.owned ht.parallel
  have hthin' : Thinned b.store u.store fun _ => False := Thinned.of_parallel h.owned' hu.parallel
  exact h.thinned (h.renamed.of_log_eq hstore hlog hlog') hthin hthin'

/-- The same statements are pruned, and the same is found about them. -/
theorem pruneTrees_renamedStates {r q : FeatureRegistry} (hsupported : q.supported.Perm r.supported)
    (h : RenamedStates f a b) :
    RunsPaired (onStore (r.pruneTrees a.store.treeIds)) (onStore (q.pruneTrees b.store.treeIds)) a b
      fun findings t findings' u =>
        RenamedStates f t u ∧ ∀ g : Finding, g.rename f ∈ findings' ↔ g ∈ findings := by
  have hspec : ∀ {s : Store} (r : FeatureRegistry), s.Owned →
      Succeeds (r.pruneTrees s.treeIds) s fun findings t =>
        r.Pruned s.tops s t findings ∧ Thinned s t fun x => s.parentOf x ≠ none :=
    fun r o => (r.pruneTrees_spec o (fun _ hq => exists_tree_of_mem_treeIds hq)
      (Store.Renamed.nodup_treeIds _)).and (FeatureRegistry.pruneTrees_succeeds o r)
  refine RunsPaired.of (Yields.onStore (hspec r h.owned)) (Yields.onStore (hspec q h.owned')) ?_
  rintro findings t findings' u ⟨⟨ht, hthin⟩, hlog⟩ ⟨⟨hu, hthin'⟩, hlog'⟩
  obtain ⟨hstore, hmem⟩ := h.renamed.store.pruned (fun _ => hsupported.mem_iff)
    h.renamed.store.mem_tops ht hu
  exact ⟨h.thinned (h.renamed.of_log_eq hstore hlog hlog') hthin hthin', hmem⟩

/-- The same features are known and supported, and what depends on others is taken out. -/
theorem resolveFeatures_renamedStates (hstop : env.stopAt = none) (c : Configuration)
    (h : RenamedStates f a b) :
    RunsPaired (resolveFeatures env c) (resolveFeatures env c) a b fun r t q u =>
      r.Renamed f q ∧ RenamedStates f t u := by
  have hcollect : ∀ {state : BuildState}, state.store.Owned →
      onStore (StoreM.query (FeatureRegistry.ofTrees · state.store.treeIds)) state =
        (.ok { entries := FeatureRegistry.known state.store }, state) := fun o => by
    rw [onStore_apply, query_apply, FeatureRegistry.ofTrees_eq o]
  have hentries := FeatureRegistry.perm_known h.renamed.store h.owned h.feature
  have hsupport := FeatureRegistry.support_of_perm (r := ⟨FeatureRegistry.known a.store, []⟩)
    (q := ⟨FeatureRegistry.known b.store, []⟩) hentries (Roll.nodup_keys_ofItems _)
    c.supportedFeatures
  have hfound := fun g : Finding => (hsupport.2.mem_iff (a := g.rename f)).trans
    (List.mem_map_of_injective (Finding.rename_injective f))
  refine RunsPaired.bind_of_eq Reading.store_apply Reading.store_apply ?_
  refine RunsPaired.bind_of_eq (hcollect h.owned) (hcollect h.owned') ?_
  refine RunsPaired.bind (reportAll_renamedStates hstop h hfound)
    fun _ t _ u ⟨hstates, htrees, htrees'⟩ => ?_
  by_cases hprunes : c.prunes = true
  · rw [if_pos hprunes, if_pos hprunes, ← htrees, ← htrees']
    refine RunsPaired.bind (pruneTrees_renamedStates hsupport.1 hstates)
      fun _ v _ w ⟨hpruned, hmem⟩ => ?_
    refine RunsPaired.bind (reportAll_renamedStates hstop hpruned hmem) fun _ _ _ _ ⟨hend, _⟩ => ?_
    exact RunsPaired.pure ⟨⟨hentries, hsupport.1⟩, hend⟩
  · rw [if_neg hprunes, if_neg hprunes]
    exact RunsPaired.pure ⟨⟨hentries, hsupport.1⟩, hstates⟩

/-- The same identities are derived from each other. -/
theorem resolveIdentities_renamedStates (hstop : env.stopAt = none) (h : RenamedStates f a b) :
    RunsPaired (resolveIdentities env) (resolveIdentities env) a b fun r t q u =>
      r.Renamed f q ∧ RenamedStates f t u := by
  have hcollect : ∀ {state : BuildState}, state.store.Owned →
      onStore (StoreM.query (IdentityCollection.ofTrees · state.store.treeIds)) state =
        (.ok (⟨IdentityCollection.collected state.store⟩,
          state.store.treeIds.flatMap (IdentityCollection.unresolvedOf state.store)), state) :=
    fun o => by rw [onStore_apply, query_apply, IdentityCollection.ofTrees_eq o]
  have hfreeze := IdentityCollection.freeze_of_perm
    (c := ⟨IdentityCollection.collected a.store⟩) (d := ⟨IdentityCollection.collected b.store⟩)
    (IdentityCollection.perm_collected h.renamed.store h.owned h.identity)
    (Roll.nodup_keys_ofItems _) fun _ he => IdentityCollection.key_of_mem_collected he
  refine RunsPaired.bind_of_eq Reading.store_apply Reading.store_apply ?_
  refine RunsPaired.bind_of_eq (hcollect h.owned) (hcollect h.owned') ?_
  dsimp only
  rw [hfreeze]
  refine RunsPaired.bind (reportAll_renamedStates hstop h fun g => ?_) fun _ _ _ _ ⟨hend, _⟩ => ?_
  · have hunresolved := IdentityCollection.perm_unresolved h.renamed.store
    rw [List.mem_append, List.mem_append, hunresolved.mem_iff,
      IdentityRegistry.findings_ofSorted_map,
      List.mem_map_of_injective (Finding.rename_injective f),
      List.mem_map_of_injective (Finding.rename_injective f)]
    rfl
  · refine RunsPaired.pure ⟨⟨rfl, ?_, ?_⟩, hend⟩
    · exact IdentityRegistry.graph_ofSorted_map f _
    · exact IdentityRegistry.cycles_ofSorted_map f _

/-- What follows merging does not depend on the numbers of statements and trees. -/
theorem resolve_renamedStates (hstop : env.stopAt = none) (c : Configuration)
    (h : RenamedStates f a b)
    (hnamed : ModelTables.Named a.store) :
    RunsPaired (resolve env c) (resolve env c) a b fun found t found' u =>
      (found.1.Renamed f found'.1 ∧ found.2.1.Renamed f found'.2.1 ∧
        found.2.2.Renamed f found'.2.2) ∧ RenamedStates f t u := by
  refine RunsPaired.bind (linkModules_renamedStates hstop c.orphans h hnamed)
    fun _ _ _ _ ⟨htables, h⟩ => ?_
  refine RunsPaired.bind (applyAttributes_renamedStates h) fun _ _ _ _ h => ?_
  refine RunsPaired.bind (resolveFeatures_renamedStates hstop c h) fun _ _ _ _ ⟨hfeatures, h⟩ => ?_
  refine RunsPaired.bind (resolveIdentities_renamedStates hstop h)
    fun _ _ _ _ ⟨hidentities, h⟩ => ?_
  exact RunsPaired.pure ⟨⟨htables, hfeatures, hidentities⟩, h⟩

end BuildM

/-! ## Schemas -/

/-- Modules own the same submodules. -/
theorem Store.Renamed.perm_submodulesOf {f : Renaming} {a b : Store} (h : a.Renamed f b)
    (ha : a.Affiliated) (hb : b.Affiliated) (r : RootId) :
    (b.submodulesOf (f.tree r)).Perm ((a.submodulesOf r).map f.tree) := by
  refine (List.perm_ext_iff_of_nodup (hb.nodup_submodules _)
    ((ha.nodup_submodules r).map f.tree.injective)).mpr fun q' => ?_
  obtain ⟨q, rfl⟩ := f.tree.surjective q'
  rw [hb.mem_submodules, h.ownerOf, List.mem_map_of_injective f.tree.injective,
    ha.mem_submodules, Option.map_eq_some_iff]
  exact ⟨fun ⟨p, hp, heq⟩ => f.tree.injective heq ▸ hp, fun hp => ⟨r, hp, rfl⟩⟩

namespace Schema

/-- The second schema is the first one with new numbers.  Its trees and their submodules are
the same, and so are its names, features, identities and findings. -/
structure Renamed (f : Renaming) (schema schema' : Schema) : Prop where
  store : schema.store.Renamed f schema'.store
  perm_submodulesOf : ∀ r, (schema'.store.submodulesOf (f.tree r)).Perm
    ((schema.store.submodulesOf r).map f.tree)
  tables : schema.tables.Renamed f schema'.tables
  features : schema.features.Renamed f schema'.features
  identities : schema.identities.Renamed f schema'.identities
  mem_log : ∀ g : Finding, g.rename f ∈ schema'.log.entries ↔ g ∈ schema.log.entries

/-- The merged states of documents in another order are renamed states. -/
theorem merge_renamedStates {env : Environment} (hstop : env.stopAt = none)
    (policy : SeverityPolicy)
    {documents documents' : List SchemaDocument} (hperm : documents.Perm documents')
    (hapart : documents.Pairwise SchemaDocument.Apart) :
    ∃ (f : Renaming) (a b : BuildState), merge env policy documents = .ok a ∧
      merge env policy documents' = .ok b ∧ RenamedStates f a b ∧ ModelTables.Named a.store ∧
      TracksDocuments f documents documents' := by
  obtain ⟨f, a, b, ha, hb, hrenamed, hsound, hsound', htracks⟩ := merge_perm hstop hperm
  exact ⟨f, a, b, ha, hb, ⟨hrenamed, hsound.treesOf.owned, hsound'.treesOf.owned,
    hsound.apart_feature hapart, hsound.apart_identity hapart⟩, hsound.named hapart, htracks⟩

/-- The order of the documents does not matter when they have different names and define
different features and identities. -/
theorem build_perm {c : Configuration}
    (hcodes : ∀ code ∈ c.codes, (FindingKind.ofCode? code).isSome = true)
    (hstop : c.stopAt = none) (grammar : Grammar) (suppliers : Suppliers)
    {documents documents' : List SchemaDocument} (hperm : documents.Perm documents')
    (hapart : documents.Pairwise SchemaDocument.Apart) :
    ∃ (f : Renaming) (schema schema' : Schema),
      build c grammar suppliers documents = .ok schema ∧
      build c grammar suppliers documents' = .ok schema' ∧
      TracksDocuments f documents documents' ∧ schema.Renamed f schema' := by
  have hvalid := Configuration.validate_eq_ok_iff.mpr hcodes
  have henv : ({ grammar, suppliers, stopAt := c.stopAt } : Environment).stopAt = none := hstop
  obtain ⟨f, a, b, ha, hb, hstates, hnamed, htracks⟩ :=
    merge_renamedStates henv c.policy hperm hapart
  obtain ⟨found, t, found', u, ht, hu, ⟨htables, hfeatures, hidentities⟩, hend⟩ :=
    BuildM.resolve_renamedStates henv c hstates hnamed
  refine ⟨f, ⟨t.store, t.log, found.1, found.2.1, found.2.2⟩,
    ⟨u.store, u.log, found'.1, found'.2.1, found'.2.2⟩, ?_, ?_, htracks, hend.renamed.store, ?_,
    htables, hfeatures, hidentities, hend.renamed.mem_log⟩
  · rw [build_of_valid hvalid, ha]
    simp only [Except.bind, ht]
    rfl
  · rw [build_of_valid hvalid, hb]
    simp only [Except.bind, hu]
    rfl
  · exact hend.renamed.store.perm_submodulesOf hend.owned.affiliated hend.owned'.affiliated

/-- An element without children, in the scope of a module. -/
def plainElement (name value : String) : Element where
  name := name
  value := some value
  line := none
  source := none
  scope := { home := "m" }
  children := []

/-- A module with a feature that includes a submodule. -/
def includingModule : SchemaDocument where
  element := { plainElement "module" "m" with
    children := [plainElement "namespace" "urn:m", plainElement "prefix" "m",
      plainElement "include" "s", plainElement "feature" "f"] }
  source := none
  conformance := .implement

/-- The submodule with a feature of its own. -/
def includedSubmodule : SchemaDocument where
  element := { plainElement "submodule" "s" with
    children := [plainElement "belongs-to" "m", plainElement "feature" "g"] }
  source := none
  conformance := .implement

/-- A module and its submodule may be built in either order. -/
theorem build_perm_submoduleFirst :
    (∀ code ∈ Configuration.template.codes, (FindingKind.ofCode? code).isSome = true) ∧
    [includingModule, includedSubmodule].Pairwise SchemaDocument.Apart ∧
    ∃ (f : Renaming) (schema schema' : Schema),
      build Configuration.template Grammar.standard {} [includingModule, includedSubmodule] =
        .ok schema ∧
      build Configuration.template Grammar.standard {} [includedSubmodule, includingModule] =
        .ok schema' ∧
      TracksDocuments f [includingModule, includedSubmodule] [includedSubmodule, includingModule] ∧
      schema.Renamed f schema' :=
  have hcodes : ∀ code ∈ Configuration.template.codes,
      (FindingKind.ofCode? code).isSome = true := by decide
  have hapart : [includingModule, includedSubmodule].Pairwise SchemaDocument.Apart := by
    decide
  ⟨hcodes, hapart, build_perm hcodes rfl Grammar.standard {} (.swap _ _ _) hapart⟩

end Schema
end StatementForest
