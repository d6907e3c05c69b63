import StatementForest.Build.Populate
import StatementForest.Document.Spec
import StatementForest.Store.Merge

/-!
# Building one document

Every document is built on its own, into a store with one tree.  The tree gets a
top statement only when the document is a module or a submodule.
-/

namespace StatementForest

/-- A document and how its module is used. -/
structure SchemaDocument where
  element : Element
  /-- Name used in reports about the tree. -/
  source : Option String
  conformance : Conformance

namespace SchemaDocument

/-- A document whose module is implemented. -/
def ofSpec (spec : DocumentSpec) : SchemaDocument where
  element := spec.toElement
  source := spec.source
  conformance := .implement

/-- Whether a document can be the top of a tree. -/
def isModel (d : SchemaDocument) : Bool :=
  d.element.name == "module" || d.element.name == "submodule"

/-- The finding about a document that cannot be the top of a tree. -/
def noModel (d : SchemaDocument) : Finding where
  subject := .element d.element.origin
  kind := .invalidRootStatement
  message := "Expected either 'module' or 'submodule' as root-statement in the document."

/-- Build the tree of a document. -/
def populate (env : Environment) (d : SchemaDocument) : BuildM Unit := do
  let root ← BuildM.onStore (modifyGet (·.addTree d.source d.conformance))
  if d.isModel then
    match ← BuildM.onStore (StoreM.instantiate env.suppliers d.element none root) with
    | .created top =>
      BuildM.onStore (StoreM.setTop root top)
      BuildM.process env top
    | .rejected finding => BuildM.report env finding
  else BuildM.report env d.noModel

/-- The store and the findings of a document that is built on its own. -/
def build (env : Environment) (policy : SeverityPolicy) (d : SchemaDocument) :
    Except Failure BuildState :=
  match (populate env d).run { log := FindingLog.empty policy } with
  | (.ok _, state) => .ok state
  | (.error failure, _) => .error failure

end SchemaDocument

namespace BuildState

/-- Take in what was built for another document. -/
def absorb (state other : BuildState) : BuildState where
  store := state.store.absorb other.store
  log := state.log.addAll (other.log.entries.map (Finding.shift state.store.slots.size))

end BuildState

end StatementForest
