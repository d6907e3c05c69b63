import StatementForest.Store.Traversal

/-!
# Inherited attributes

Namespace, conformance, status and config flow down from a statement to those
below it.  The first two are the same everywhere.  The value of the others is
found from the value of the parent by a rule, written into the statement and
passed on to its children.
-/

namespace StatementForest
namespace Store

/-! ### Rules -/

/-- The status that a statement declares. -/
def declaredStatus (s : Store) (id : NodeId) : Option Status :=
  (s.firstNodeOfKeyword id .status).bind fun n => Status.ofText? n.argument

/-- A status is replaced only by a later one. -/
def statusBelow (s : Store) (id : NodeId) (inherited : Status) : Status :=
  inherited.override (s.declaredStatus id)

/-- Whether a statement is, or declares itself, not to be configuration. -/
def declaresConfigFalse (s : Store) (id : NodeId) : Bool :=
  (((s.get? id).bind (·.keyword?)).any (·.forcesConfigFalse)) ||
    (s.firstNodeOfKeyword id .config).any (·.argument == "false")

/-- Below a statement that is not configuration nothing is. -/
def configBelow (s : Store) (id : NodeId) (inherited : Bool) : Bool :=
  inherited && !s.declaresConfigFalse id

end Store

namespace StoreM

variable {α : Type}

/-- Find the values of a live statement and of those below it.  `rule` finds a
value from the inherited one, and `write` keeps it.  A walk that goes on for
`height` levels fails. -/
def inheritWithin (rule : Store → NodeId → α → α) (write : α → Node → Node) :
    (height : Nat) → α → NodeId → StoreM Unit
  | 0, _, _ => throw Store.endlessWalk
  | height + 1, inherited, id => do
    let n ← node id
    let value := rule (← get) id inherited
    update id (write value)
    n.children.forM fun child => inheritWithin rule write height value child

theorem inheritWithin_succ (rule : Store → NodeId → α → α) (write : α → Node → Node)
    (height : Nat) (inherited : α) (id : NodeId) :
    inheritWithin rule write (height + 1) inherited id = (do
      let n ← node id
      let value := rule (← get) id inherited
      update id (write value)
      n.children.forM fun child => inheritWithin rule write height value child) := rfl

/-- Find the values of a live statement and of all those below it. -/
def inherit (rule : Store → NodeId → α → α) (write : α → Node → Node) (inherited : α)
    (id : NodeId) : StoreM Unit := do
  inheritWithin rule write ((← get).slots.size + 1) inherited id

/-! ### The four attributes -/

/-- Set the namespace of a statement and of all those below it. -/
def assignNamespace (id : NodeId) (uri : Option String) : StoreM Unit :=
  updateBelow id fun n => { n with namespaceUri := uri }

/-- Set the conformance of a statement and of all those below it. -/
def assignConformance (id : NodeId) (conformance : Conformance) : StoreM Unit :=
  updateBelow id fun n => { n with conformance := some conformance }

/-- Find the status of a statement and of all those below it. -/
def assignStatus (id : NodeId) (inherited : Status) : StoreM Unit :=
  inherit Store.statusBelow (fun status n => { n with status }) inherited id

/-- Find the config value of a statement and of all those below it. -/
def assignConfig (id : NodeId) (inherited : Bool) : StoreM Unit :=
  inherit Store.configBelow (fun config n => { n with config }) inherited id

end StoreM

end StatementForest
