import StatementForest.Build.Context
import StatementForest.Collection.Roll
import StatementForest.Configuration.Basic
import StatementForest.Store.Submodule

/-!
# Linking submodules to modules

The trees of a store are found by the names of their tops.  A submodule is owned
by the module that its `belongs-to` names, and a module is expected to include
every submodule that it owns.  Of several trees with one name the first counts.
-/

namespace StatementForest

/-- The trees of modules and of submodules by name. -/
structure ModelTables where
  modules : Roll String RootId := {}
  submodules : Roll String RootId := {}
  deriving Inhabited

namespace ModelTables

/-- Enter a tree with its live top; a tree without one is passed over. -/
def add (s : Store) (tables : ModelTables) (root : RootId) : ModelTables :=
  match (s.tree? root).bind fun t => t.top.bind s.get? with
  | none => tables
  | some top =>
    if top.isKeyword .module then
      { tables with modules := tables.modules.insertNew top.argument root }
    else { tables with submodules := tables.submodules.insertNew top.argument root }

/-- The tables of all trees of a store. -/
def ofStore (s : Store) : ModelTables := s.treeIds.foldl (add s) {}

/-- The tree of a module or, failing that, of a submodule. -/
def find? (tables : ModelTables) (name : String) : Option RootId :=
  (tables.modules.find? name).or (tables.submodules.find? name)

end ModelTables

/-! ### Messages -/

/-- The message about an included submodule that is missing. -/
def missingSubmoduleMessage (submodule : String) : String :=
  "Submodule " ++ submodule ++ " not found in input."

/-- The message about the missing module of a submodule. -/
def missingModuleMessage (owner : String) : String :=
  "Owning module '" ++ owner ++ "' not found in input."

/-- The message about a submodule without a module. -/
def orphanMessage (submodule : String) : String :=
  "Submodule '" ++ submodule ++
    "' has no owning module in the input; its namespace is unresolved."

/-- The message about a submodule that its module does not include. -/
def notIncludedMessage (owner : String) : String :=
  "Owning module '" ++ owner ++ "' does not 'include' this submodule."

/-- Whether a tree includes a submodule. -/
def StoreM.includes (owner : RootId) (submodule : String) : StoreM Bool := do
  match (← tree owner).top with
  | none => return false
  | some top =>
    let included ← childrenOfKeyword top .includeStatement
    let s ← get
    return included.any fun i => (s.get? i).any (·.argument == submodule)

namespace BuildM

/-- Read a tree. -/
def tree (id : RootId) : BuildM Tree := onStore (StoreM.tree id)

/-! ### Modules -/

/-- Complain about an `include` of a submodule that is missing. -/
def checkInclude (env : Environment) (tables : ModelTables) (id : NodeId) : BuildM Unit := do
  let name := (← node id).argument
  unless tables.submodules.contains name do
    reportOn env id .unresolvableInclude (missingSubmoduleMessage name)

/-- Complain about the submodules that a module includes and that are missing. -/
def checkIncludes (env : Environment) (tables : ModelTables) (root : RootId) :
    BuildM Unit := do
  match (← tree root).top with
  | none => return
  | some top =>
    let included ← onStore (StoreM.childrenOfKeyword top .includeStatement)
    included.forM (checkInclude env tables)

/-! ### Submodules -/

/-- Complain about a submodule whose module is missing. -/
def reportOrphan (env : Environment) (policy : OrphanPolicy) (top belongsTo : NodeId)
    (submodule owner : String) : BuildM Unit := do
  reportOn env belongsTo .unresolvableBelongsTo (missingModuleMessage owner)
  if policy = .emitFinding then
    reportOn env top .orphanSubmodule (orphanMessage submodule)

/-- Link a submodule to its module, which is expected to include it. -/
def joinModule (env : Environment) (ownerRoot root : RootId) (top : NodeId)
    (submodule owner : String) : BuildM Unit := do
  onStore (StoreM.linkSubmodule ownerRoot root)
  unless ← onStore (StoreM.includes ownerRoot submodule) do
    reportOn env top .orphanSubmodule (notIncludedMessage owner)

/-- Link a submodule to the module that its first `belongs-to` names. -/
def linkTree (env : Environment) (policy : OrphanPolicy) (tables : ModelTables)
    (root : RootId) : BuildM Unit := do
  match (← tree root).top with
  | none => return
  | some top =>
    match ← onStore (StoreM.childrenOfKeyword top .belongsTo) with
    | [] => return
    | belongsTo :: _ =>
      let owner := (← node belongsTo).argument
      let submodule := (← node top).argument
      match tables.modules.find? owner with
      | none => reportOrphan env policy top belongsTo submodule owner
      | some ownerRoot => joinModule env ownerRoot root top submodule owner

/-- Link every submodule to its module and complain about what is missing. -/
def linkModules (env : Environment) (policy : OrphanPolicy) : BuildM ModelTables := do
  let tables := ModelTables.ofStore (← store)
  tables.modules.values.forM (checkIncludes env tables)
  tables.submodules.values.forM (linkTree env policy tables)
  return tables

end BuildM

end StatementForest
