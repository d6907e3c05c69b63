import StatementForest.Collection.Roll
import StatementForest.Graph.Component
import StatementForest.Statement.GlobalName
import StatementForest.Store.Submodule

/-!
# Identities and their derivation

An identity may be derived from others.  Collecting gathers the identities of
any number of trees; freezing numbers them in the order of their names and turns
their bases into the edges of a graph that lead from a base to what is derived
from it.

Main results:

- `IdentityRegistry.position?_eq_some`: only an identity that agrees in all parts
  of its name is found.

Current gaps:

- The test that guards the search for cycles is a parameter of `checkAcyclic`.  Programs run it
  with `Digraph.hasCycle`, which finds every cycle.
-/

namespace StatementForest

/-- One use of an identity as a base. -/
structure BaseUse where
  target : Key
  node : NodeId
  origin : Origin
  deriving DecidableEq

/-- An identity, its statement and its bases. -/
structure IdentityEntry where
  identity : GlobalName
  node : NodeId
  origin : Origin
  bases : List BaseUse

/-- Identities in the course of being collected. -/
structure IdentityCollection where
  entries : Roll Key IdentityEntry := {}
  deriving Inhabited

/-- All identities with the graph of their derivations. -/
structure IdentityRegistry where
  /-- The identities in the order of their names; a position is a node of the graph. -/
  entries : List IdentityEntry := []
  /-- Edges from bases to what is derived from them. -/
  graph : Digraph := ⟨0, []⟩
  deriving Inhabited

namespace IdentityCollection

/-! ### Collecting -/

/-- The finding about a base whose qualifier is not bound. -/
def unboundBaseQualifier (id : NodeId) (n : Node) (qualifier : String) : Finding where
  subject := n.subject id
  kind := .unresolvablePrefix
  message := "Prefix '" ++ qualifier ++ "' of base '" ++ n.argument ++ "' not resolvable."

/-- The identity that a `base` statement refers to.  A name without a qualifier
belongs to the module of the identity that is being defined. -/
def resolveBase (module : String) (id : NodeId) (n : Node) : Except Finding BaseUse :=
  let use (target : Key) : BaseUse := ⟨target, id, n.element.origin⟩
  match Text.splitAtFirst ':' n.argument with
  | none => .ok (use ⟨module, n.argument⟩)
  | some (qualifier, localName) =>
    match n.element.scope.module? qualifier with
    | some owner => .ok (use ⟨owner, localName⟩)
    | none => .error (unboundBaseQualifier id n qualifier)

/-- The outcomes for the `base` statements of an identity. -/
def basesOf (s : Store) (module : String) (id : NodeId) : List (Except Finding BaseUse) :=
  (s.childrenOfKeyword id .base).filterMap fun b =>
    (s.get? b).map (resolveBase module b)

/-- The bases among several outcomes. -/
def resolved (outcomes : List (Except Finding BaseUse)) : List BaseUse :=
  outcomes.filterMap fun
    | .ok use => some use
    | .error _ => none

/-- The findings among several outcomes. -/
def unresolved (outcomes : List (Except Finding BaseUse)) : List Finding :=
  outcomes.filterMap fun
    | .ok _ => none
    | .error finding => some finding

/-- The entry of an `identity` statement. -/
def entryOf (s : Store) (namespaceUri : String) (id : NodeId) (n : Node) : IdentityEntry :=
  let module := n.element.scope.home
  { identity := ⟨namespaceUri, module, n.argument⟩
    node := id
    origin := n.element.origin
    bases := resolved (basesOf s module id) }

/-- Take in an entry, in place of one of the same module and name. -/
def insert (c : IdentityCollection) (e : IdentityEntry) : IdentityCollection :=
  ⟨c.entries.insert e.identity.key e⟩

/-- Take in the identities at the top of a tree. -/
def collect (c : IdentityCollection) (s : Store) (root : RootId) :
    Except Failure (IdentityCollection × List Finding) := do
  match (← s.tree root).top with
  | none => return (c, [])
  | some top =>
    let namespaceUri := (← s.namespaceOf root).getD ""
    let statements := (s.childrenOfKeyword top .identity).filterMap fun id =>
      (s.get? id).map (id, ·)
    let entries := statements.map fun (id, n) => entryOf s namespaceUri id n
    let findings := statements.flatMap fun (id, n) =>
      unresolved (basesOf s n.element.scope.home id)
    return (entries.foldl insert c, findings)

/-- The number of identities. -/
def size (c : IdentityCollection) : Nat := c.entries.size

end IdentityCollection

namespace IdentityRegistry

/-! ### Queries -/

/-- The number of identities. -/
def size (r : IdentityRegistry) : Nat := r.entries.length

/-- The position of the identity of a module and a name. -/
def positionOfKey? (r : IdentityRegistry) (key : Key) : Option Nat :=
  r.entries.findIdx? (·.identity.key = key)

/-- The identity of a module and a name. -/
def find? (r : IdentityRegistry) (key : Key) : Option GlobalName :=
  (r.entries.find? (·.identity.key = key)).map (·.identity)

/-- The position of an identity. -/
def position? (r : IdentityRegistry) (identity : GlobalName) : Option Nat :=
  r.entries.findIdx? (·.identity = identity)

theorem position?_eq_some {r : IdentityRegistry} {identity : GlobalName} {i : Nat}
    (h : r.position? identity = some i) :
    ∃ e, r.entries[i]? = some e ∧ e.identity = identity := by
  obtain ⟨hlt, heq, _⟩ := List.findIdx?_eq_some_iff_getElem.mp h
  exact ⟨r.entries[i], by simp [hlt], by simpa using heq⟩

/-- The identities at some positions. -/
def identitiesAt (r : IdentityRegistry) (positions : List Nat) : List GlobalName :=
  positions.filterMap fun i => (r.entries[i]?).map (·.identity)

/-- Some positions in increasing order, each once. -/
def ordered (r : IdentityRegistry) (positions : List Nat) : List Nat :=
  r.graph.nodes.filter positions.contains

/-- The statement that defines an identity. -/
def statementOf? (r : IdentityRegistry) (identity : GlobalName) : Option NodeId :=
  (r.entries.find? (·.identity = identity)).map (·.node)

/-- The identities that a look from the position of an identity finds. -/
def look (r : IdentityRegistry) (identity : GlobalName) (f : Nat → List Nat) :
    List GlobalName :=
  match r.position? identity with
  | some i => r.identitiesAt (r.ordered (f i))
  | none => []

/-- The identities that an identity is directly derived from. -/
def bases (r : IdentityRegistry) (identity : GlobalName) : List GlobalName :=
  r.look identity r.graph.predecessors

/-- The identities that are directly derived from an identity. -/
def derivatives (r : IdentityRegistry) (identity : GlobalName) : List GlobalName :=
  r.look identity r.graph.successors

/-- An identity and all identities derived from it, directly or not. -/
def closure (r : IdentityRegistry) (identity : GlobalName) : List GlobalName :=
  r.look identity r.graph.reach

/-- Whether an identity is another or is derived from it. -/
def isDerivedFrom (r : IdentityRegistry) (derived base : GlobalName) : Bool :=
  match r.position? base, r.position? derived with
  | some source, some target => (r.graph.reach source).contains target
  | _, _ => false

/-- The cycles of derivation; the first identity of each is repeated at its end. -/
def cycles (r : IdentityRegistry) : List (List GlobalName) :=
  r.graph.cyclicComponents.map fun component =>
    r.identitiesAt (component ++ component.take 1)

/-- The identities of a cycle, as messages show them. -/
def renderCycle (cycle : List GlobalName) : String :=
  " → ".intercalate (cycle.map GlobalName.render)

/-- Fail with the first cycle of derivation when a test finds the graph cyclic. -/
def checkAcyclic (isCyclic : Digraph → Bool) (r : IdentityRegistry) :
    Except (List GlobalName) Unit :=
  if isCyclic r.graph then .error (r.cycles.head?.getD []) else .ok ()

/-- The message of a registry with a cycle. -/
def cycleMessage (cycle : List GlobalName) : String :=
  "Circular identity derivation: " ++ renderCycle cycle

/-! ### Freezing -/

/-- The finding about a base that no identity is known for. -/
def missingBase (use : BaseUse) : Finding where
  subject := .statement use.node use.origin
  kind := .unspecified
  message := "Base identity '" ++ use.target.owner ++ ":" ++ use.target.name ++ "' not found."

/-- Connect the bases of the identity at a position with it. -/
def connectBases (r : IdentityRegistry) (g : Digraph) (position : Nat) (e : IdentityEntry) :
    Digraph :=
  (e.bases.filterMap fun use => r.positionOfKey? use.target).foldl
    (fun g base => g.connect base position) g

/-- The registry of entries in the order of their names. -/
def ofSorted (entries : List IdentityEntry) : IdentityRegistry :=
  let r : IdentityRegistry := { entries, graph := ⟨entries.length, []⟩ }
  { r with
    graph := entries.zipIdx.foldl (fun g (e, position) => r.connectBases g position e) r.graph }

/-- The finding about a cycle, made for its first identity. -/
def cycleFinding? (r : IdentityRegistry) (cycle : List GlobalName) : Option Finding := do
  let first ← cycle.head?
  let e ← r.entries.find? (·.identity = first)
  return {
    subject := .statement e.node e.origin
    kind := .identityCycle
    message := "Identity derivation cycle: " ++ renderCycle cycle }

/-- The findings about the bases and the cycles of a registry. -/
def findings (r : IdentityRegistry) : List Finding :=
  let missing := r.entries.flatMap fun e =>
    e.bases.filter fun use => (r.positionOfKey? use.target).isNone
  missing.map missingBase ++ r.cycles.filterMap r.cycleFinding?

end IdentityRegistry

/-- Put the collected identities in order and connect them with their bases. -/
def IdentityCollection.freeze (c : IdentityCollection) : IdentityRegistry :=
  IdentityRegistry.ofSorted
    (c.entries.values.mergeSort fun a b => a.identity.precedes b.identity)

end StatementForest
