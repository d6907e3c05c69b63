import StatementForest.Proofs.Build.DocumentTrees
import StatementForest.Proofs.Schema.LinkingSuccess
import StatementForest.Proofs.Feature.PruningSuccess

/-!
# Building a schema never goes wrong

A schema is built from every list of documents unless a code of the configuration is
unknown, or the configuration asks to stop and a finding is serious enough.  Linking,
the attributes, the features, pruning and the identities keep one tree for each
document, and all live statements stand in these trees.

Main results:

- Theorem `FeatureRegistry.pruneTrees_succeeds`: pruning keeps the trees.
- Theorem `BuildM.resolve_outcome`: so does everything that follows merging.
- Theorem `Schema.build_refused_or_stopped_or_complete`: what comes out of a build.
-/

namespace StatementForest

open Store

variable {s t : Store} {documents : List SchemaDocument} {r : RootId}

/-- A store that has lost statements with parents keeps the trees of its documents. -/
theorem TreesOf.of_thinned (h : TreesOf documents s)
    (hst : Thinned s t fun x => s.parentOf x ≠ none) : TreesOf documents t := by
  have htopOf : ∀ r, t.topOf r = s.topOf r := fun r => by simp only [topOf, tree?, hst.trees]
  refine ⟨hst.owned, fun x hx hnone => ?_, fun i => ?_, fun i x hx => ?_⟩
  · rw [TreesOf.isTop_congr htopOf]
    rw [hst.parentOf x hx] at hnone
    exact h.planted x (hst.contains_of_contains x hx) hnone
  · rw [tree?, hst.trees]
    exact h.heading i
  · rw [htopOf] at hx
    have hlive := contains_of_rootOf (h.owned.rooted.rootOf_top _ x hx)
    have hkept := hst.contains_of_not_gone x hlive
      (not_not_intro (h.owned.rooted.parentOf_top _ x hx))
    rw [elementOf, hst.faceOf x hkept]
    exact h.element_top i x hx

/-! ## Collecting from all trees -/

/-- Going through a list succeeds when every step does, whatever came before. -/
theorem foldlM_eq_ok {α β ε : Type} {f : β → α → Except ε β} {items : List α}
    (h : ∀ a ∈ items, ∀ b, ∃ c, f b a = .ok c) (b : β) : ∃ c, items.foldlM f b = .ok c := by
  induction items generalizing b with
  | nil => exact ⟨b, rfl⟩
  | cons a rest ih =>
    obtain ⟨c, hc⟩ := h a List.mem_cons_self b
    obtain ⟨d, hd⟩ := ih (fun x hx => h x (List.mem_cons_of_mem _ hx)) c
    exact ⟨d, by rw [List.foldlM_cons, hc]; exact hd⟩

namespace FeatureRegistry

/-- The features of a tree can be collected. -/
theorem collect_eq_ok (o : s.Owned) {tree : Tree} (h : s.tree? r = some tree)
    (known : FeatureRegistry) : ∃ registry, known.collect s r = .ok registry := by
  obtain ⟨uri, huri⟩ := o.namespaceOf_eq_ok h
  rw [collect, Store.tree, h]
  simp only [bind, Except.bind]
  split
  · exact ⟨_, rfl⟩
  · rw [huri]
    exact ⟨_, rfl⟩

/-- The features of all trees can be collected. -/
theorem ofTrees_eq_ok (o : s.Owned) : ∃ registry, ofTrees s s.treeIds = .ok registry := by
  refine foldlM_eq_ok (fun r hr known => ?_) _
  obtain ⟨tree, htree⟩ := exists_tree_of_mem_treeIds hr
  exact collect_eq_ok o htree known

/-- Pruning all trees leaves every statement without a parent. -/
theorem pruneTrees_succeeds (o : s.Owned) (registry : FeatureRegistry) :
    Succeeds (registry.pruneTrees s.treeIds) s fun _ t =>
      Thinned s t fun x => s.parentOf x ≠ none := by
  refine Yields.bind (Yields.mapM (I := fun rest t =>
    Thinned s t (fun x => s.parentOf x ≠ none) ∧ ∀ r ∈ rest, r ∈ s.treeIds) ?_ ?_) ?_
  · exact ⟨Thinned.refl o, fun _ hr => hr⟩
  · rintro r rest t ⟨ht, hmem⟩
    obtain ⟨tree, htree⟩ := exists_tree_of_mem_treeIds (hmem r List.mem_cons_self)
    have htree' : t.tree? r = some tree := by rw [tree?, ht.trees, ← tree?, htree]
    refine Yields.imp (pruneTree_succeeds ht.owned htree') fun _ u hu => ?_
    refine ⟨(ht.trans hu).mono ?_, fun q hq => hmem q (List.mem_cons_of_mem _ hq)⟩
    rintro x (hx | ⟨hxt, hx⟩)
    · exact hx
    · rwa [ht.parentOf x hxt] at hx
  · rintro _ t ⟨ht, _⟩
    exact Yields.pure ht

end FeatureRegistry

namespace IdentityCollection

/-- The identities of a tree can be collected. -/
theorem collect_eq_ok (o : s.Owned) {tree : Tree} (h : s.tree? r = some tree)
    (known : IdentityCollection) : ∃ collected, known.collect s r = .ok collected := by
  obtain ⟨uri, huri⟩ := o.namespaceOf_eq_ok h
  rw [collect, Store.tree, h]
  simp only [bind, Except.bind]
  split
  · exact ⟨_, rfl⟩
  · rw [huri]
    exact ⟨_, rfl⟩

/-- The identities of all trees can be collected. -/
theorem ofTrees_eq_ok (o : s.Owned) : ∃ collected, ofTrees s s.treeIds = .ok collected := by
  refine foldlM_eq_ok (fun r hr known => ?_) _
  obtain ⟨tree, htree⟩ := exists_tree_of_mem_treeIds hr
  obtain ⟨⟨collection, unresolved⟩, hcollect⟩ := collect_eq_ok o htree known.1
  exact ⟨_, by simp only [hcollect, bind, Except.bind]; rfl⟩

end IdentityCollection

/-! ## After merging -/

/-- A step that only extends the store keeps one tree for each document. -/
theorem OnlyExtends.treesOf {α : Type} {env : Environment} {m : BuildM α} {state : BuildState}
    (hm : OnlyExtends env m state) (h : TreesOf documents state.store) :
    Yields (fun e _ => Stops env e) m state fun _ t => TreesOf documents t.store :=
  Yields.imp hm fun _ _ ht => h.of_extends ht.1

namespace BuildM

variable {env : Environment} {state : BuildState}

/-- Resolving features stops, or keeps the trees of the documents. -/
theorem resolveFeatures_outcome (c : Configuration) (h : TreesOf documents state.store) :
    Yields (fun e _ => Stops env e) (resolveFeatures env c) state fun _ t =>
      TreesOf documents t.store := by
  obtain ⟨known, hknown⟩ := FeatureRegistry.ofTrees_eq_ok h.owned
  apply Yields.bind_of_eq Reading.store_apply
  refine Yields.bind_of_eq (a := known) (t := state) ?_ ?_
  · rw [onStore_apply, query_apply, hknown]
  apply Yields.bind (OnlyExtends.reportAll h.owned _)
  intro _ t ⟨hext, _⟩
  have ht := h.of_extends hext
  split
  · have hroots : state.store.treeIds = t.store.treeIds := by
      rw [treeIds, treeIds, h.size_trees, ht.size_trees]
    rw [hroots]
    refine Yields.bind (Yields.onStore (Yields.of_succeeds
      (FeatureRegistry.pruneTrees_succeeds ht.owned _))) ?_
    intro pruned u ⟨hu, _⟩
    have hu := ht.of_thinned hu
    apply Yields.bind ((OnlyExtends.reportAll hu.owned pruned).treesOf hu)
    exact fun _ v hv => Yields.pure hv
  · exact Yields.pure ht

/-- Resolving identities stops, or keeps the trees of the documents. -/
theorem resolveIdentities_outcome (h : TreesOf documents state.store) :
    Yields (fun e _ => Stops env e) (resolveIdentities env) state fun _ t =>
      TreesOf documents t.store := by
  obtain ⟨collected, hcollected⟩ := IdentityCollection.ofTrees_eq_ok h.owned
  apply Yields.bind_of_eq Reading.store_apply
  refine Yields.bind_of_eq (a := collected) (t := state) ?_ ?_
  · rw [onStore_apply, query_apply, hcollected]
  apply Yields.bind ((OnlyExtends.reportAll h.owned _).treesOf h)
  exact fun _ t ht => Yields.pure ht

/-- Everything that follows merging keeps one tree for each document, and fails only in
order to stop. -/
theorem resolve_outcome (c : Configuration) (h : TreesOf documents state.store) :
    Yields (fun e _ => Stops env e) (resolve env c) state fun _ t =>
      TreesOf documents t.store := by
  refine Yields.bind ((OnlyExtends.linkModules c.orphans h.owned).treesOf h) fun tables t ht => ?_
  have happly : OnlyExtends env (onStore StoreM.applyAttributes) t :=
    OnlyExtends.of_onlyReports ht.owned
      (OnlyReports.onStore (StoreM.applyAttributes_succeeds ht.owned))
  refine Yields.bind (happly.treesOf ht) fun _ u hu => ?_
  refine Yields.bind (resolveFeatures_outcome c hu) fun features v hv => ?_
  refine Yields.bind (resolveIdentities_outcome hv) fun identities w hw => ?_
  exact Yields.pure hw

end BuildM

/-! ## Schemas -/

namespace Schema

/-- A configuration is refused exactly when it names an unknown code. -/
theorem validate_outcome (c : Configuration) :
    (c.validate = .ok () ∧ ¬ ∃ code ∈ c.codes, FindingKind.ofCode? code = none) ∨
      ∃ fault, c.validate = .error (.config fault) ∧
        ∃ code ∈ c.codes, FindingKind.ofCode? code = none := by
  rw [Configuration.validate]
  split
  · next code hcode =>
    have hunknown := List.find?_some hcode
    exact .inr ⟨.unknownCode code, rfl, code, List.mem_of_find?_eq_some hcode,
      Option.isNone_iff_eq_none.mp hunknown⟩
  · next hnone =>
    refine .inl ⟨rfl, ?_⟩
    rintro ⟨code, hmem, hcode⟩
    exact List.find?_eq_none.mp hnone code hmem (Option.isNone_iff_eq_none.mpr hcode)

/-- The last document is built and merged after all others. -/
theorem merge_append_singleton (env : Environment) (policy : SeverityPolicy)
    (documents : List SchemaDocument) (d : SchemaDocument) :
    merge env policy (documents ++ [d]) = (do
      let state ← merge env policy documents
      let other ← d.build env policy
      return state.absorb other) := by
  rw [merge, merge, List.mapM_append, List.mapM_cons, List.mapM_nil]
  rcases documents.mapM (SchemaDocument.build env policy) with e | states
  · rfl
  rcases d.build env policy with e | other
  · rfl
  · change Except.ok ((states ++ [other]).foldl BuildState.absorb _) = _
    rw [List.foldl_append]
    rfl

/-- The schema of a build whose last part has ended. -/
def ofResolved :
    Except Failure (ModelTables × FeatureRegistry × IdentityRegistry) × BuildState →
      Except Failure Schema
  | (.error failure, _) => .error failure
  | (.ok (tables, features, identities), state) =>
    .ok { store := state.store, log := state.log, tables, features, identities }

/-- A build with valid settings merges its documents and resolves what is merged. -/
theorem build_of_valid {c : Configuration} (h : c.validate = .ok ()) (grammar : Grammar)
    (suppliers : Suppliers) (documents : List SchemaDocument) :
    build c grammar suppliers documents =
      (merge { grammar, suppliers, stopAt := c.stopAt } c.policy documents).bind fun state =>
        ofResolved (BuildM.resolve { grammar, suppliers, stopAt := c.stopAt } c state) := by
  rw [build, h]
  rfl

/-- With known codes a build ends with one tree for each document, or stops because
it was asked to. -/
theorem treesOf_of_valid {c : Configuration} (h : c.validate = .ok ()) (grammar : Grammar)
    (suppliers : Suppliers) (documents : List SchemaDocument) :
    (∃ f, build c grammar suppliers documents = .error (.failFast f) ∧
      c.stopAt.isSome = true) ∨
    ∃ schema, build c grammar suppliers documents = .ok schema ∧
      TreesOf documents schema.store := by
  rw [build_of_valid h]
  obtain ⟨state, hmerge, hstand⟩ | ⟨e, hmerge, hstop, f, rfl⟩ :=
    merge_outcome { grammar, suppliers, stopAt := c.stopAt } c.policy documents
  · rw [hmerge]
    have hresolve : Yields (fun e _ => Stops { grammar, suppliers, stopAt := c.stopAt } e)
        (BuildM.resolve { grammar, suppliers, stopAt := c.stopAt } c) state
        fun _ t => TreesOf documents t.store := BuildM.resolve_outcome c hstand
    unfold Yields at hresolve
    simp only [Except.bind]
    rcases hrun : BuildM.resolve { grammar, suppliers, stopAt := c.stopAt } c state with
      ⟨e | ⟨tables, features, identities⟩, t⟩
    · rw [hrun] at hresolve
      obtain ⟨hstop, f, rfl⟩ := hresolve
      exact .inl ⟨f, rfl, hstop⟩
    · rw [hrun] at hresolve
      exact .inr ⟨_, rfl, hresolve⟩
  · rw [hmerge]
    exact .inl ⟨f, rfl, hstop⟩

/-- The store of a schema satisfies the invariant and has one tree for each document, in
their order.  The subtrees of the tops hold every live statement once. -/
structure Complete (schema : Schema) (documents : List SchemaDocument) : Prop where
  owned : schema.store.Owned
  size_trees : schema.store.trees.size = documents.length
  tree : ∀ i d, documents[i]? = some d → ∃ tree, schema.store.tree? ⟨i⟩ = some tree ∧
    tree.source = d.source ∧ tree.conformance = d.conformance ∧
    ∀ x, tree.top = some x → schema.store.elementOf x = some d.element
  subtrees : ∃ subtrees, schema.store.tops.mapM schema.store.descendants = .ok subtrees ∧
    subtrees.flatten.Perm schema.store.liveIds

/-- A schema with the trees of its documents is complete. -/
theorem Complete.of_treesOf {schema : Schema} (h : TreesOf documents schema.store) :
    schema.Complete documents where
  owned := h.owned
  size_trees := h.size_trees
  tree i d hd := by
    have hheading := h.heading i
    rw [hd, Option.map_some, Option.map_eq_some_iff] at hheading
    obtain ⟨tree, htree, heq⟩ := hheading
    refine ⟨tree, htree, congrArg Prod.fst heq, congrArg Prod.snd heq, fun x hx => ?_⟩
    rw [h.element_top i x, hd]
    · rfl
    · rw [topOf, htree, Option.bind_some, hx]
  subtrees := h.exists_subtrees

/-- A build is refused exactly when its configuration names an unknown code.  Otherwise
it stops because it was asked to, or ends with a complete schema. -/
theorem build_refused_or_stopped_or_complete (c : Configuration) (grammar : Grammar)
    (suppliers : Suppliers) (documents : List SchemaDocument) :
    ((∃ fault, build c grammar suppliers documents = .error (.config fault)) ↔
      ∃ code ∈ c.codes, FindingKind.ofCode? code = none) ∧
    ((∃ fault, build c grammar suppliers documents = .error (.config fault)) ∨
      (∃ f, build c grammar suppliers documents = .error (.failFast f) ∧
        c.stopAt.isSome = true) ∨
      ∃ schema, build c grammar suppliers documents = .ok schema ∧
        schema.Complete documents) := by
  obtain ⟨hvalid, hknown⟩ | ⟨fault, hinvalid, hunknown⟩ := validate_outcome c
  · obtain ⟨f, hbuild, hstop⟩ | ⟨schema, hbuild, hstand⟩ :=
      treesOf_of_valid hvalid grammar suppliers documents
    · rw [hbuild]
      refine ⟨⟨?_, fun h => absurd h hknown⟩, .inr (.inl ⟨f, rfl, hstop⟩)⟩
      rintro ⟨fault, hfault⟩
      cases hfault
    · rw [hbuild]
      refine ⟨⟨?_, fun h => absurd h hknown⟩,
        .inr (.inr ⟨schema, rfl, Complete.of_treesOf hstand⟩)⟩
      rintro ⟨fault, hfault⟩
      cases hfault
  · have hbuild := build_of_invalid hinvalid grammar suppliers documents
    exact ⟨⟨fun _ => hunknown, fun _ => ⟨fault, hbuild⟩⟩, .inl ⟨fault, hbuild⟩⟩

end Schema
end StatementForest
