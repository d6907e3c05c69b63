import StatementForest.Proofs.Schema.FailFast
import StatementForest.Proofs.Identity.ParallelCollection
import StatementForest.Proofs.Schema.OrderIndependence

/-!
# Which definition of a name counts

Several documents may define a module of one name, or one feature or identity.  The tables of
modules and submodules keep the first tree of a name: a later one does not displace it.  Features
and identities are taken in one after another, and there a later definition of a key displaces the
earlier ones.

Main results:

- Theorem `ModelTables.find?_ofStore`: the tables keep the first tree of a name.
- Theorem `BuildM.resolve_namesDefinitions`: what follows merging keeps the last definition of a
  key.
- Theorem `Schema.namesDefinitions_of_build`: what every schema tells that is built without pruning.
- Theorem `IdentityCollection.twoTrees_displaced`: the first definition of an identity is lost.

Current gaps:

- Nothing is pruned.  With pruning a definition may be taken out, and an earlier definition of its
  key is not found instead.
-/

namespace StatementForest

open Store

/-! ## The first tree of a name -/

/-- A new entry is found when its key had none. -/
theorem Roll.find?_insertNew {κ α : Type} [DecidableEq κ] (r : Roll κ α) (key other : κ)
    (value : α) :
    (r.insertNew key value).find? other = (r.find? other).or ([(key, value)].lookup other) := by
  unfold insertNew
  by_cases heq : other = key
  · subst heq
    rcases hfind : r.find? other with _ | known
    · simp [contains, hfind]
    · simp [contains, hfind]
  · have hlookup : [(key, value)].lookup other = none := by
      simp [List.lookup_cons, beq_false_of_ne heq]
    rw [hlookup, Option.or_none]
    split
    · rfl
    · rw [find?_insert_of_ne r value heq]

namespace ModelTables

variable {s t : Store} {root : RootId}

/-- The table of modules or that of submodules. -/
def table (tables : ModelTables) : Bool → Roll String RootId
  | true => tables.modules
  | false => tables.submodules

/-- Entering a tree changes only what is found under a name that is not there yet. -/
theorem find?_add (s : Store) (tables : ModelTables) (root : RootId) (isModule : Bool)
    (name : String) : ((tables.add s root).table isModule).find? name =
      ((tables.table isModule).find? name).or ((entries s isModule root).lookup name) := by
  have hbind : ((s.tree? root).bind fun t => t.top.bind s.get?) = (s.topOf root).bind s.get? := by
    rw [topOf, Option.bind_assoc]
  rw [add, hbind, entries]
  rcases (s.topOf root).bind s.get? with _ | n
  · simp
  cases isModule <;> by_cases hmodule : n.isKeyword .module = true <;>
    simp [hmodule, table, Roll.find?_insertNew]

/-- The tables keep the first tree of a name. -/
theorem find?_ofStore (s : Store) (isModule : Bool) (name : String) :
    ((ofStore s).table isModule).find? name =
      (s.treeIds.flatMap (entries s isModule)).lookup name := by
  have hfold : ∀ (roots : List RootId) (tables : ModelTables),
      ((roots.foldl (add s) tables).table isModule).find? name =
        ((tables.table isModule).find? name).or
          ((roots.flatMap (entries s isModule)).lookup name) := by
    intro roots
    induction roots with
    | nil => simp
    | cons root rest ih =>
      intro tables
      rw [List.foldl_cons, ih, find?_add, List.flatMap_cons, List.lookup_append, Option.or_assoc]
  have hempty : ((({} : ModelTables).table isModule).find? name) = none := by
    cases isModule <;> rfl
  rw [ofStore, hfold, hempty, Option.none_or]

/-- What a tree adds to the tables does not depend on attributes. -/
theorem entries_of_parallel (h : Parallel s t) (isModule : Bool) (root : RootId) :
    entries t isModule root = entries s isModule root := by
  rw [entries, entries, h.topOf]
  rcases s.topOf root with _ | top
  · rfl
  rw [Option.bind_some, Option.bind_some]
  rcases hn : s.get? top with _ | n
  · rw [h.get?_eq_none hn]
  · obtain ⟨m, hm, hface⟩ := h.exists_get? hn
    rw [hm]
    dsimp only
    rw [Node.isKeyword_of_face hface, Node.argument_of_face hface]

/-- Recording findings does not change what a tree adds to the tables. -/
theorem entries_of_renamed (h : s.Renamed .refl t) (isModule : Bool) (root : RootId) :
    entries t isModule root = entries s isModule root := by
  have hroot : entries t isModule root = (entries s isModule root).map (Prod.map id id) :=
    entries_renamed h isModule root
  rwa [Prod.map_id, List.map_id] at hroot

/-- Linking does not change what a tree adds to the tables. -/
theorem entries_linked (s : Store) (isModule : Bool) (root : RootId) :
    entries (BuildM.linked s) isModule root = entries s isModule root := by
  rw [entries, entries, BuildM.linked, topOf_adopt]
  rfl

end ModelTables

/-! ## The last definition of a key -/

/-- Keeping every number keeps an entry. -/
theorem FeatureEntry.rename_refl : FeatureEntry.rename .refl = id := rfl

variable {a b : Store}

/-- Recording findings does not change which features trees add. -/
theorem FeatureRegistry.items_of_renamed (h : a.Renamed .refl b) (o : a.Owned) :
    b.treeIds.flatMap (items b) = a.treeIds.flatMap (items a) := by
  rw [h.treeIds_eq]
  refine List.flatMap_congr fun q hq => ?_
  have hitems := items_renamed h o hq
  rwa [FeatureEntry.rename_refl, Prod.map_id, List.map_id] at hitems

/-- Recording findings does not change which identities trees add. -/
theorem IdentityCollection.items_of_renamed (h : a.Renamed .refl b) (o : a.Owned) :
    b.treeIds.flatMap (items b) = a.treeIds.flatMap (items a) := by
  rw [h.treeIds_eq]
  refine List.flatMap_congr fun q hq => ?_
  have hitems := items_renamed h o hq
  rwa [IdentityEntry.rename_refl, Prod.map_id, List.map_id] at hitems

/-- What a schema tells of the names and the keys that its trees define. -/
structure Schema.NamesDefinitions (schema : Schema) : Prop where
  /-- A name stands for the first module that has it. -/
  modules : ∀ name, schema.tables.modules.find? name =
    (schema.store.treeIds.flatMap (ModelTables.entries schema.store true)).lookup name
  /-- A name stands for the first submodule that has it. -/
  submodules : ∀ name, schema.tables.submodules.find? name =
    (schema.store.treeIds.flatMap (ModelTables.entries schema.store false)).lookup name
  /-- A key stands for the last feature that has it. -/
  features : ∀ key, schema.features.entries.find? key =
    Roll.latest (schema.store.treeIds.flatMap (FeatureRegistry.items schema.store)) key
  /-- A key stands for the last identity that has it. -/
  identities : ∀ key e, e ∈ schema.identities.entries ∧ e.identity.key = key ↔
    Roll.latest (schema.store.treeIds.flatMap (IdentityCollection.items schema.store)) key = some e
  /-- An identity is derived from the identities that this definition has as bases. -/
  bases : ∀ base derived, schema.identities.Edge base derived ↔
    ∃ e ∈ schema.identities.entries, ∃ e' ∈ schema.identities.entries, e.identity = base ∧
      e'.identity = derived ∧ ∃ use ∈ e'.bases, use.target = base.key

namespace BuildM

variable {env : Environment} {c : Configuration} {state : BuildState}

/-- Without pruning, the features of all trees are known, and only findings are recorded. -/
theorem resolveFeatures_known (hstop : env.stopAt = none) (hprunes : c.prunes = false)
    (o : state.store.Owned) : Succeeds (resolveFeatures env c) state fun r t =>
      r.entries = FeatureRegistry.known state.store ∧ state.store.Renamed .refl t.store ∧
        t.store.Owned := by
  have hcollect : onStore (StoreM.query (FeatureRegistry.ofTrees · state.store.treeIds)) state =
      (.ok { entries := FeatureRegistry.known state.store }, state) := by
    rw [onStore_apply, query_apply, FeatureRegistry.ofTrees_eq o]
  refine Yields.bind_of_eq Reading.store_apply (Yields.bind_of_eq hcollect ?_)
  refine Yields.bind ((reportAll_logs hstop _).and (OnlyExtends.reportAll o _)) ?_
  intro _ t ⟨ht, hext, _⟩
  rw [hprunes, if_neg Bool.false_ne_true]
  exact Yields.pure ⟨rfl, ht.store, hext.owned⟩

/-- The identities of all trees are frozen, and only findings about them are recorded. -/
theorem resolveIdentities_collected (hstop : env.stopAt = none) (o : state.store.Owned) :
    Succeeds (resolveIdentities env) state fun r t =>
      r = IdentityCollection.freeze ⟨IdentityCollection.collected state.store⟩ ∧
        state.Logs (state.store.treeIds.flatMap (IdentityCollection.unresolvedOf state.store) ++
          r.findings) t := by
  have hcollect : onStore (StoreM.query (IdentityCollection.ofTrees · state.store.treeIds)) state =
      (.ok (⟨IdentityCollection.collected state.store⟩,
        state.store.treeIds.flatMap (IdentityCollection.unresolvedOf state.store)), state) := by
    rw [onStore_apply, query_apply, IdentityCollection.ofTrees_eq o]
  refine Yields.bind_of_eq Reading.store_apply (Yields.bind_of_eq hcollect ?_)
  refine Yields.bind (reportAll_logs hstop _) fun _ t ht => ?_
  exact Yields.pure ⟨rfl, ht⟩

/-- The first tree of a name counts, and the last definition of a feature or an identity. -/
theorem resolve_namesDefinitions (hstop : env.stopAt = none) (hprunes : c.prunes = false)
    (o : state.store.Owned) : Succeeds (resolve env c) state fun found t =>
      Schema.NamesDefinitions ⟨t.store, t.log, found.1, found.2.1, found.2.2⟩ := by
  refine Yields.bind ((linkModules_spec hstop c.orphans o).and
    (OnlyExtends.linkModules c.orphans o))
    fun _ t ⟨⟨htables, ht, _⟩, hext, _⟩ => ?_
  refine Yields.bind (Yields.onStore (StoreM.applyAttributes_spec hext.owned))
    fun _ u ⟨hu, _⟩ => ?_
  have ou := hext.owned.of_parallel hu.parallel
  refine Yields.bind (resolveFeatures_known hstop hprunes ou) fun r v ⟨hr, hv, ov⟩ => ?_
  refine Yields.bind (resolveIdentities_collected hstop ov) fun q w ⟨hq, hlogs⟩ => ?_
  subst htables hq
  have hw := hlogs.store
  have huw := hv.trans hw
  have htrees : w.store.treeIds = state.store.treeIds := by
    have hlinked : (linked state.store).treeIds = state.store.treeIds := by
      simp [linked, treeIds, adopt]
    have hparallel : u.store.treeIds = t.store.treeIds := by
      rw [treeIds, treeIds, hu.parallel.trees]
    rw [huw.treeIds_eq, hparallel, ht.treeIds_eq, hlinked]
  have hentries : ∀ isModule, w.store.treeIds.flatMap (ModelTables.entries w.store isModule) =
      state.store.treeIds.flatMap (ModelTables.entries state.store isModule) := by
    intro isModule
    rw [htrees]
    refine List.flatMap_congr fun root _ => ?_
    rw [ModelTables.entries_of_renamed huw, ModelTables.entries_of_parallel hu.parallel,
      ModelTables.entries_of_renamed ht, ModelTables.entries_linked]
  have hkeyed := (IdentityCollection.collectsInterleaved_collected v.store v.store.treeIds).keyed
  refine Yields.pure ⟨fun name => ?_, fun name => ?_, fun key => ?_, fun key e => ?_,
    fun base derived => ?_⟩
  · rw [hentries]
    exact ModelTables.find?_ofStore state.store true name
  · rw [hentries]
    exact ModelTables.find?_ofStore state.store false name
  · rw [hr, FeatureRegistry.known, Roll.find?_ofItems]
    exact congrArg (Roll.latest · key) (FeatureRegistry.items_of_renamed huw ou).symm
  · rw [IdentityCollection.items_of_renamed hw ov, ← Roll.find?_ofItems]
    exact hkeyed.find?_eq_some_iff.symm
  · exact IdentityRegistry.edge_ofSorted_iff hkeyed.sound.distinct

end BuildM

namespace Schema

variable {c : Configuration} {grammar : Grammar} {suppliers : Suppliers}
  {documents : List SchemaDocument} {schema : Schema}

/-- A build that never stops early ends with a schema that tells of the last definitions. -/
theorem namesDefinitions_of_steady (hstop : c.stopAt = none) (hprunes : c.prunes = false)
    (hbuild : build c grammar suppliers documents = .ok schema) : schema.NamesDefinitions := by
  have hvalid := validate_of_build hbuild
  have henv : ({ grammar, suppliers, stopAt := c.stopAt } : Environment).stopAt = none := hstop
  rw [build_of_valid hvalid] at hbuild
  obtain ⟨state, hmerge, hstand⟩ | ⟨e, hmerge, -⟩ :=
    merge_outcome { grammar, suppliers, stopAt := c.stopAt } c.policy documents
  · have hresolve := BuildM.resolve_namesDefinitions henv hprunes hstand.owned
    unfold Succeeds Yields at hresolve
    rw [hmerge] at hbuild
    simp only [Except.bind] at hbuild
    rcases hrun : BuildM.resolve { grammar, suppliers, stopAt := c.stopAt } c state with
      ⟨e | found, t⟩ <;> rw [hrun] at hresolve hbuild
    · exact hresolve.elim
    · cases hbuild
      exact hresolve
  · rw [hmerge] at hbuild
    cases hbuild

/-- The first tree of a name counts, and the last definition of a feature or an identity, in every
schema that is built without pruning.  A build that might have stopped early ends with the schema
of one that never does. -/
theorem namesDefinitions_of_build (hprunes : c.prunes = false)
    (hbuild : build c grammar suppliers documents = .ok schema) : schema.NamesDefinitions :=
  namesDefinitions_of_steady (c := { c with failFast := none }) rfl hprunes (build_steady hbuild)

/-- A document with a module that defines an identity and one of its bases, or not. -/
def rivalDocument (bases : List String) : SchemaDocument where
  element := { plainElement "module" "m" with
    children := [plainElement "namespace" "urn:m", plainElement "prefix" "m",
      { plainElement "identity" "a" with children := bases.map (plainElement "base") },
      plainElement "identity" "b"] }
  source := none
  conformance := .implement

/-- Two documents that define one module are built, and the second one displaces the first. -/
theorem namesDefinitions_of_build_rivalDocuments : Configuration.template.prunes = false ∧
    ∃ schema, build Configuration.template Grammar.standard {}
        [rivalDocument ["b"], rivalDocument []] = .ok schema ∧ schema.NamesDefinitions := by
  have hprunes : Configuration.template.prunes = false := rfl
  have hvalid : Configuration.template.validate = .ok () := by rfl
  obtain ⟨_, _, hnever⟩ | ⟨schema, hbuild, -⟩ := treesOf_of_valid hvalid Grammar.standard {}
    [rivalDocument ["b"], rivalDocument []]
  · cases hnever
  · exact ⟨hprunes, schema, hbuild, namesDefinitions_of_build hprunes hbuild⟩

end Schema

namespace IdentityCollection

/-- The identities of all trees do not keep the first definition of a key. -/
theorem twoTrees_displaced : ¬ ∀ (s : Store), s.Owned → ∀ c findings,
    ofTrees s s.treeIds = .ok (c, findings) →
      ∀ key, c.entries.find? key = (s.treeIds.flatMap (items s)).lookup key := by
  intro hfirst
  have howned := (reachable_twoTrees "a" "a").owned
  have hsame := hfirst _ howned _ _ (ofTrees_eq howned) ⟨"m", "a"⟩
  rw [collected, Roll.find?_ofItems] at hsame
  have hnodes : (Roll.latest ((twoTrees "a" "a").treeIds.flatMap (items (twoTrees "a" "a")))
        ⟨"m", "a"⟩).map (·.node) ≠
      (((twoTrees "a" "a").treeIds.flatMap (items (twoTrees "a" "a"))).lookup
        ⟨"m", "a"⟩).map (·.node) := by
    decide +kernel
  exact hnodes (congrArg (Option.map (·.node)) hsame)

end IdentityCollection
end StatementForest
