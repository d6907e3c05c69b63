import StatementForest.Collection.Roll
import StatementForest.Condition.Parser
import StatementForest.Statement.GlobalName
import StatementForest.Store.Submodule

/-!
# Features and their support

A feature may have conditions on other features.  Starting from the features
that were asked for, every feature whose conditions do not hold is dropped, and
this is repeated until the conditions of all that remain hold.

Main results:

- `FeatureRegistry.settle_sublist`: nothing is supported that was not asked for.
- `FeatureRegistry.holds_of_mem_settle`: the conditions of every feature that
  remains hold against the features that remain.
-/

namespace StatementForest

/-- A condition together with the scope in which its names were written. -/
structure ScopedCondition where
  expression : Condition.Expression
  scope : Scope

/-- A feature, its statement and its conditions. -/
structure FeatureEntry where
  feature : GlobalName
  node : NodeId
  origin : Origin
  conditions : List ScopedCondition

/-- The known features, and which of them are supported. -/
structure FeatureRegistry where
  entries : Roll Key FeatureEntry := {}
  supported : List Key := []
  deriving Inhabited

namespace ScopedCondition

/-- The feature that a name refers to. -/
def resolve? (c : ScopedCondition) (name : String) : Option Key :=
  (c.scope.resolve? name).map fun (module, localName) => ⟨module, localName⟩

/-- Whether a condition holds when the given features are supported.  A name that
refers to nothing is not supported. -/
def holds (supported : List Key) (c : ScopedCondition) : Bool :=
  c.expression.holds fun name => (c.resolve? name).any supported.contains

end ScopedCondition

namespace Store

/-- The condition that an `if-feature` statement sets, if it can be read. -/
def conditionOf? (n : Node) : Option ScopedCondition :=
  (Condition.parse? n.argument).map fun e => ⟨e, n.element.scope⟩

/-- The conditions on a statement.  Those that cannot be read do not count. -/
def conditionsOf (s : Store) (id : NodeId) : List ScopedCondition :=
  (s.childrenOfKeyword id .ifFeature).filterMap fun c => (s.get? c).bind conditionOf?

end Store

namespace FeatureRegistry

/-! ### The known features -/

/-- The entry of a `feature` statement. -/
def entryOf (s : Store) (namespaceUri : String) (id : NodeId) (n : Node) : FeatureEntry where
  feature := ⟨namespaceUri, n.element.scope.home, n.argument⟩
  node := id
  origin := n.element.origin
  conditions := s.conditionsOf id

/-- Take in an entry, in place of one of the same module and name. -/
def insert (r : FeatureRegistry) (e : FeatureEntry) : FeatureRegistry :=
  { r with entries := r.entries.insert e.feature.key e }

/-- Take in the features at the top of a tree. -/
def collect (r : FeatureRegistry) (s : Store) (root : RootId) :
    Except Failure FeatureRegistry := do
  match (← s.tree root).top with
  | none => return r
  | some top =>
    let namespaceUri := (← s.namespaceOf root).getD ""
    let features := (s.childrenOfKeyword top .feature).filterMap fun id =>
      (s.get? id).map (entryOf s namespaceUri id)
    return features.foldl insert r

/-- The known features, in the order in which they became known. -/
def features (r : FeatureRegistry) : List GlobalName := r.entries.values.map (·.feature)

/-- The number of known features. -/
def size (r : FeatureRegistry) : Nat := r.entries.size

/-- The known feature of a module. -/
def find? (r : FeatureRegistry) (key : Key) : Option GlobalName :=
  (r.entries.find? key).map (·.feature)

/-- Whether a feature of a module is supported. -/
def supports (r : FeatureRegistry) (key : Key) : Bool := r.supported.contains key

/-- The supported features, in the order in which they became known. -/
def supportedFeatures (r : FeatureRegistry) : List GlobalName :=
  (r.entries.entries.filter fun e => r.supports e.1).map (·.2.feature)

/-! ### Support -/

/-- Whether the conditions of a feature hold when the given features are supported. -/
def stands (entries : Roll Key FeatureEntry) (supported : List Key) (key : Key) : Bool :=
  match entries.find? key with
  | some e => e.conditions.all (·.holds supported)
  | none => true

/-- The features whose conditions hold when all of the given ones are supported. -/
def standing (entries : Roll Key FeatureEntry) (supported : List Key) : List Key :=
  supported.filter (stands entries supported)

/-- Drop features until the conditions of all others hold. -/
def settle (entries : Roll Key FeatureEntry) (supported : List Key) : List Key :=
  if (standing entries supported).length < supported.length then
    settle entries (standing entries supported)
  else supported
termination_by supported.length

/-- Settling only drops features. -/
theorem settle_sublist (entries : Roll Key FeatureEntry) (supported : List Key) :
    (settle entries supported).Sublist supported := by
  induction h : supported.length using Nat.strongRecOn generalizing supported with
  | _ n ih =>
    subst h
    rw [settle]
    split
    · next hlt => exact (ih _ hlt _ rfl).trans List.filter_sublist
    · exact List.Sublist.refl _

/-- The conditions of a feature that is left hold of what is left. -/
theorem holds_of_mem_settle (entries : Roll Key FeatureEntry) (supported : List Key) :
    ∀ key ∈ settle entries supported,
      stands entries (settle entries supported) key = true := by
  induction h : supported.length using Nat.strongRecOn generalizing supported with
  | _ n ih =>
    subst h
    rw [settle]
    split
    · next hlt => exact ih _ hlt _ rfl
    · next hge =>
      have hlen : (standing entries supported).length = supported.length :=
        Nat.le_antisymm (List.length_filter_le _ _) (Nat.le_of_not_lt hge)
      exact List.filter_eq_self.mp (List.filter_sublist.eq_of_length hlen)

/-- The known feature that a request names. -/
def requested? (r : FeatureRegistry) (name : String) : Option Key :=
  (Text.splitAtFirst ':' name).bind fun (module, localName) =>
    let key : Key := ⟨module, localName⟩
    if r.entries.contains key then some key else none

/-- The features that a request asks for; without a request these are all. -/
def asked (r : FeatureRegistry) (request : Option (List String)) : List Key :=
  match request with
  | none => r.entries.keys
  | some names => (names.filterMap r.requested?).eraseDups

/-- The finding about a feature that was asked for and cannot be supported. -/
def unsupportedFinding (e : FeatureEntry) : Finding where
  subject := .statement e.node e.origin
  kind := .featureCannotBeSupported
  message := "Feature '" ++ e.feature.localName ++
    "' cannot be supported as its if-feature condition is not satisfied."

/-- Decide which features are supported.  Findings are made only for features that
a request names, in the order of their statements. -/
def support (r : FeatureRegistry) (request : Option (List String)) :
    FeatureRegistry × List Finding :=
  let asked := r.asked request
  let supported := settle r.entries asked
  let dropped :=
    if request.isSome then asked.filter (!supported.contains ·) else []
  let entries := (dropped.filterMap r.entries.find?).mergeSort
    fun a b => a.node.index ≤ b.node.index
  ({ r with supported }, entries.map unsupportedFinding)

/-! ### Conditions of statements -/

/-- The finding about a name whose qualifier is not bound. -/
def unboundFeatureQualifier (id : NodeId) (n : Node) (qualifier name : String) : Finding where
  subject := n.subject id
  kind := .unresolvablePrefix
  message := "Prefix '" ++ qualifier ++ "' of feature '" ++ name ++ "' not resolvable."

/-- The findings about the names in one `if-feature` statement. -/
def nameFindings (id : NodeId) (n : Node) : List Finding :=
  match Condition.parse? n.argument with
  | none => []
  | some e => e.names.filterMap fun name =>
    match Text.splitAtFirst ':' name with
    | some (qualifier, _) =>
      if (n.element.scope.module? qualifier).isNone then
        some (unboundFeatureQualifier id n qualifier name)
      else none
    | none => none

/-- Whether the conditions on a statement hold. -/
def admits (r : FeatureRegistry) (s : Store) (id : NodeId) : Bool :=
  (s.conditionsOf id).all (·.holds r.supported)

/-- The findings about the names in the conditions on a statement. -/
def conditionFindings (s : Store) (id : NodeId) : List Finding :=
  (s.childrenOfKeyword id .ifFeature).flatMap fun c =>
    match s.get? c with
    | some n => nameFindings c n
    | none => []

/-- Whether the conditions on a live statement hold, with the findings about the
names in them. -/
def judge (r : FeatureRegistry) (s : Store) (id : NodeId) :
    Except Failure (Bool × List Finding) := do
  let _ ← s.node id
  return (r.admits s id, conditionFindings s id)

end FeatureRegistry

end StatementForest
