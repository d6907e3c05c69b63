import StatementForest.Feature.Pruning
import StatementForest.Identity.Registry
import StatementForest.Schema.Document
import StatementForest.Schema.Linking
import StatementForest.Store.Attributes

/-!
# Schemas

A schema is what becomes of a list of documents: one store with the trees of all
documents, linked and with their attributes assigned, the features and the
identities found in them, and the findings of the whole build.

Current gaps:

- Documents are built and identities are collected one tree after another, also when the
  configuration asks for parallel work.  What collecting side by side may lead to is told by
  `IdentityCollection.ofTrees_agree`.
-/

namespace StatementForest

/-- The trees of several documents and what was found out about them. -/
structure Schema where
  store : Store
  log : FindingLog
  tables : ModelTables := {}
  features : FeatureRegistry := {}
  identities : IdentityRegistry := {}
  deriving Inhabited

/-! ### Attributes -/

namespace StoreM

/-- Find the attributes of all statements of a tree. -/
def applyTreeAttributes (root : RootId) : StoreM Unit := do
  let t ← tree root
  match t.top with
  | none => pure ()
  | some top =>
    let _ ← node top
    assignNamespace top (← query (·.namespaceOf root))
    assignConformance top t.conformance
    assignStatus top .current
    assignConfig top true

/-- Find the attributes of all statements of all trees. -/
def applyAttributes : StoreM Unit := do
  (← get).treeIds.forM applyTreeAttributes

end StoreM

/-! ### Features and identities -/

namespace FeatureRegistry

/-- The features of several trees. -/
def ofTrees (s : Store) (roots : List RootId) : Except Failure FeatureRegistry :=
  roots.foldlM (fun r root => r.collect s root) {}

/-- Prune several trees one after another. -/
def pruneTrees (r : FeatureRegistry) (roots : List RootId) : StoreM (List Finding) := do
  let findings ← roots.mapM r.pruneTree
  return findings.flatten

end FeatureRegistry

namespace IdentityCollection

/-- The identities of several trees, with the findings about their bases. -/
def ofTrees (s : Store) (roots : List RootId) :
    Except Failure (IdentityCollection × List Finding) :=
  roots.foldlM
    (fun (c, findings) root => do
      let (c, unresolved) ← c.collect s root
      return (c, findings ++ unresolved))
    ({}, [])

end IdentityCollection

namespace BuildM

/-- Collect the features of all trees and decide which are supported.  When asked
to, take out what depends on the others. -/
def resolveFeatures (env : Environment) (c : Configuration) : BuildM FeatureRegistry := do
  let roots := (← store).treeIds
  let known ← onStore (StoreM.query (FeatureRegistry.ofTrees · roots))
  let (registry, findings) := known.support c.supportedFeatures
  reportAll env findings
  if c.prunes then
    let pruned ← onStore (registry.pruneTrees roots)
    reportAll env pruned
  return registry

/-- Collect the identities of all trees and connect them. -/
def resolveIdentities (env : Environment) : BuildM IdentityRegistry := do
  let roots := (← store).treeIds
  let (collection, unresolved) ← onStore (StoreM.query (IdentityCollection.ofTrees · roots))
  let registry := collection.freeze
  reportAll env (unresolved ++ registry.findings)
  return registry

/-- Everything that follows once the trees of all documents are in one store. -/
def resolve (env : Environment) (c : Configuration) :
    BuildM (ModelTables × FeatureRegistry × IdentityRegistry) := do
  let tables ← linkModules env c.orphans
  onStore StoreM.applyAttributes
  let features ← resolveFeatures env c
  let identities ← resolveIdentities env
  return (tables, features, identities)

end BuildM

namespace Schema

/-- Build every document on its own and bring the results together. -/
def merge (env : Environment) (policy : SeverityPolicy) (documents : List SchemaDocument) :
    Except Failure BuildState := do
  let builds ← documents.mapM (SchemaDocument.build env policy)
  return builds.foldl BuildState.absorb { log := FindingLog.empty policy }

/-- Build a schema. -/
def build (c : Configuration) (grammar : Grammar) (suppliers : Suppliers)
    (documents : List SchemaDocument) : Except Failure Schema := do
  c.validate
  let env : Environment := { grammar, suppliers, stopAt := c.stopAt }
  let state ← merge env c.policy documents
  match (BuildM.resolve env c).run state with
  | (.error failure, _) => .error failure
  | (.ok (tables, features, identities), state) =>
    return { store := state.store, log := state.log, tables, features, identities }

theorem build_of_invalid {c : Configuration} {failure : Failure}
    (h : c.validate = .error failure) (grammar : Grammar) (suppliers : Suppliers)
    (documents : List SchemaDocument) : build c grammar suppliers documents = .error failure := by
  simp [build, h, bind, Except.bind]

/-- The tree of a module. -/
def moduleTree? (schema : Schema) (name : String) : Option RootId :=
  schema.tables.modules.find? name

/-- The tree of a submodule. -/
def submoduleTree? (schema : Schema) (name : String) : Option RootId :=
  schema.tables.submodules.find? name

/-- The top statement of a module or, failing that, of a submodule. -/
def topStatement? (schema : Schema) (name : String) : Option NodeId :=
  (schema.tables.find? name).bind schema.store.topOf

end Schema

end StatementForest
