import StatementForest.Extension.Supplier
import StatementForest.Finding.Log
import StatementForest.Grammar.Basic
import StatementForest.Store.Mutation

/-!
# Building under supervision

Building works on a store and a finding log.  A finding is kept in the log and
with the statement it is about.  When a severity is set at which to stop, the
first finding that reaches it ends the work; nothing else depends on findings.
-/

namespace StatementForest

/-- What building depends on and never changes. -/
structure Environment where
  grammar : Grammar
  suppliers : Suppliers
  /-- The severity at which to stop, if any. -/
  stopAt : Option Severity := none

/-- What building changes. -/
structure BuildState where
  store : Store := {}
  log : FindingLog := {}
  deriving Inhabited

/-- A building step.  What it did before a failure counts. -/
abbrev BuildM := ExceptT Failure (StateM BuildState)

namespace BuildM

/-- Run an operation of the store. -/
def onStore {α : Type} (action : StoreM α) : BuildM α := fun state =>
  match state with
  | ⟨store, log⟩ =>
    let (result, store) := action store
    (result, ⟨store, log⟩)

/-- Read the store. -/
def store : BuildM Store := do return (← get).store

/-- Read a live statement. -/
def node (id : NodeId) : BuildM Node := onStore (StoreM.node id)

/-- Change a live statement. -/
def update (id : NodeId) (f : Node → Node) : BuildM Unit := onStore (StoreM.update id f)

/-- Record a finding unless its kind is suppressed, and stop if it is serious enough. -/
def report (env : Environment) (f : Finding) : BuildM Unit := do
  match (← get).log.severityOf f with
  | none => return
  | some severity =>
    modify fun state =>
      { store := state.store.attachFinding f, log := (state.log.add f).1 }
    if env.stopAt.any severity.reaches then throw (.failFast f)

/-- Record several findings in order. -/
def reportAll (env : Environment) (findings : List Finding) : BuildM Unit :=
  findings.forM (report env)

/-- Record a finding about a statement. -/
def reportOn (env : Environment) (id : NodeId) (kind : FindingKind) (message : String) :
    BuildM Unit := do
  let n ← node id
  report env { subject := n.subject id, kind, message }

/-- Record a finding about a document element without a statement. -/
def reportOnElement (env : Environment) (e : Element) (kind : FindingKind) (message : String) :
    BuildM Unit :=
  report env { subject := .element e.origin, kind, message }

end BuildM

end StatementForest
