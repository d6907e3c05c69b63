import StatementForest.Build.Argument
import StatementForest.Build.Context
import StatementForest.Extension.Catalogue
import StatementForest.Text.Date

/-!
# What a complete statement is checked for

When the children of a statement are in place, the statement itself is looked
at.  What is wrong with it is a function of the statements concerned; a check
reads these, and reports the faults in them.
-/

namespace StatementForest

/-! ### Faults of core statements -/

/-- What is wrong with a statement that lacks a child it should have. -/
def lackFault (n : Node) (child : Keyword) (kind : FindingKind) : Fault :=
  (kind, n.name ++ " '" ++ n.argument ++ "' does not have a " ++ child.text ++
    " (bad practice).")

/-- Properties that a statement has at all times and that can therefore be
replaced but neither added nor deleted. -/
def isStandingProperty (n : Node) : Bool :=
  n.isKeyword .config || n.isKeyword .mandatory || n.isKeyword .type ||
    n.isKeyword .minElements || n.isKeyword .maxElements

/-- What is wrong with a child of a deviation that takes the target away. -/
def uselessFault? (n : Node) : Option Fault :=
  if n.isExtension then none
  else some (.illegalChildStatement,
    "Statement '" ++ n.name ++ "' cannot occur under 'deviate not-supported'.")

/-- What is wrong with adding or deleting a property that always exists. -/
def standingFault? (n : Node) : Option Fault :=
  if isStandingProperty n then
    some (.invalidDeviateProperty,
      "This statement cannot be used under 'deviate add/delete' as it refers to a property " ++
        "that always exists. Use a 'deviate replace' instead.")
  else none

/-- What is wrong with a deviation that changes nothing. -/
def idleFault (operation : String) : Fault :=
  (.missingRequiredChild, "Statements are required under 'deviate " ++ operation ++ "'.")

/-! ### Faults of extensions -/

/-- What is wrong with the argument of an extension. -/
def policyFault? (rule : ExtensionRule) (n : Node) : Option Fault :=
  match rule.argument with
  | .mandatory => blankFault? n.name n.argument
  | .identifier => (blankFault? n.name n.argument).or (identifierFault? n.argument)
  | .forbidden =>
    if n.element.value.isSome then
      some (.invalidSyntax,
        "'" ++ rule.key.name ++ "' extension does not allow for an argument.")
    else none
  | .optional => none

/-- What is wrong with the form of an argument that is not blank. -/
def formFault? (rule : ExtensionRule) (n : Node) : Option Fault :=
  match rule.form with
  | some .version =>
    if n.argument.isEmpty || (Text.readVersion n.argument).isSome then none
    else some (.invalidExtension,
      "Label value must be in 'version.release.correction' format.")
  | none => none

/-- What is wrong with the parent of an extension. -/
def parentFault? (rule : ExtensionRule) (parent : Node) : Option Fault :=
  let amends := parent.isKeyword .deviate || parent.isKeyword .refine
  if (rule.underAmendments && amends) ||
      (ExtensionClass.ruled rule).allowsParent parent.key then none
  else some (.invalidExtension,
    "Extension statement '" ++ rule.key.name ++ "' is not allowed under '" ++
      parent.name ++ "'.")

/-- What is wrong with the number of extensions of one key below a parent. -/
def repetitionFault? (twins : List NodeId) : Option Fault :=
  if twins.length ≤ 1 then none
  else some (.invalidExtension,
    "The allowed maximum cardinality for this extension statement is 1.")

/-- What is wrong with the types of an annotation. -/
def typeFault? (types : List NodeId) : Option Fault :=
  if types.length = 1 then none
  else some (.missingRequiredChild, "A 'type' statement is required for the annotation.")

/-- What is wrong with the children that stand for one side of a relationship. -/
def sideFault? (side : String) (annotated : List NodeId) : Option Fault :=
  if annotated.length = 1 then none
  else some (.invalidExtension,
    "A 'bi-directional relationship' must have as child exactly a single leaf or " ++
      "leaf-list annotated with '" ++ side ++ "'.")

/-! ### Versions -/

/-- The names under which the numbers of a version are kept. -/
def versionParts : List String := ["label-version", "label-release", "label-correction"]

/-- The numbers of a version in an argument, if all of them fit into 64 bits. -/
def versionNumbers? (argument : String) : Option (List Int) :=
  (Text.readVersion argument).bind fun v =>
    [v.version, v.release, v.correction].mapM fun run =>
      let number : Int := Text.digitsValue run
      if Text.inSigned64 number then some number else none

/-- Keep the numbers of the version in the argument with the statement. -/
def Node.recordVersion (n : Node) : Node :=
  match versionNumbers? n.argument with
  | none => n
  | some numbers =>
    { n with
      data := n.data.insertAll
        (versionParts.zip (numbers.map CustomValue.int)) }

namespace Store

/-- How many children of the same key stand before a child. -/
def earlierTwins (s : Store) (children : List NodeId) (child : NodeId) (key : Key) : Nat :=
  (children.takeWhile (· ≠ child)).countP fun c => (s.get? c).any (·.key = key)

end Store

namespace StoreM

/-- Number one child among its siblings of the same key, if that has a meaning. -/
def numberChild (children : List NodeId) (child : NodeId) : StoreM Unit := do
  let n ← node child
  if n.orderMatters then
    let position := (← get).earlierTwins children child n.key
    update child fun n => { n with order := some position }

/-- Number the children of a statement whose order has a meaning. -/
def numberChildren (id : NodeId) : StoreM Unit := do
  let children ← childrenOf id
  children.forM (numberChild children)

/-- Read the children that stand for one side of a relationship. -/
def sideChildren (id : NodeId) (side : String) : StoreM (List NodeId) := do
  let children ← childrenOf id
  children.filterM fun child => do
    let n ← node child
    if n.isKeyword .leaf || n.isKeyword .leafList then
      return !(← childrenWithKey child (Catalogue.sideKey side)).isEmpty
    else return false

end StoreM

namespace BuildM

/-! ### Checks -/

/-- Record what is wrong with a statement, if anything is. -/
def blame (env : Environment) (id : NodeId) (fault? : Option Fault) : BuildM Unit :=
  match fault? with
  | some fault => reportOn env id fault.1 fault.2
  | none => pure ()

@[simp]
theorem blame_some (env : Environment) (id : NodeId) (fault : Fault) :
    blame env id (some fault) = reportOn env id fault.1 fault.2 := rfl

/-- Check the argument of a core statement. -/
def checkCoreArgument (env : Environment) (id : NodeId) (k : Keyword) : BuildM Unit := do
  let n ← node id
  blame env id (k.argumentRule.fault? n.name n.element.value)

/-- Complain about a statement without a child that it should have. -/
def requireChild (env : Environment) (id : NodeId) (child : Keyword) (kind : FindingKind) :
    BuildM Unit := do
  let found ← onStore (StoreM.childrenOfKeyword id child)
  if found.isEmpty then
    blame env id (some (lackFault (← node id) child kind))

/-- Check every child of a deviation. -/
def checkAmendments (env : Environment) (fault? : Node → Option Fault)
    (children : List NodeId) : BuildM Unit :=
  children.forM fun child => do
    let n ← node child
    blame env child (fault? n)

/-- Check the children of a deviation. -/
def checkDeviation (env : Environment) (id : NodeId) : BuildM Unit := do
  let n ← node id
  let operation := n.argument
  if operation = "not-supported" then checkAmendments env uselessFault? n.children
  else if operation = "add" ∨ operation = "replace" ∨ operation = "delete" then
    if n.children.isEmpty then blame env id (some (idleFault operation))
    else if operation = "replace" then return
    else checkAmendments env standingFault? n.children

/-- Check what stands below a core statement, beyond the grammar. -/
def checkContent (env : Environment) (id : NodeId) (k : Keyword) : BuildM Unit :=
  match k with
  | .deviate => checkDeviation env id
  | .enum => requireChild env id .value .enumWithoutValue
  | .bit => requireChild env id .position .bitWithoutPosition
  | _ => pure ()

/-- Check the parent of an extension. -/
def checkParent (env : Environment) (id : NodeId) (rule : ExtensionRule) : BuildM Unit := do
  match (← node id).parent with
  | none => return
  | some parent => blame env id (parentFault? rule (← node parent))

/-- Check how many extensions of one key a parent has. -/
def checkRepetition (env : Environment) (id : NodeId) (rule : ExtensionRule) :
    BuildM Unit := do
  if rule.repeatable then return
  match (← node id).parent with
  | none => return
  | some parent =>
    blame env id (repetitionFault? (← onStore (StoreM.childrenWithKey parent rule.key)))

/-- Check an extension as far as its rule goes. -/
def checkRule (env : Environment) (id : NodeId) (rule : ExtensionRule) : BuildM Unit := do
  let n ← node id
  blame env id (policyFault? rule n)
  blame env id (formFault? rule n)
  checkParent env id rule
  checkRepetition env id rule

/-- Do what an extension asks for once its subtree is complete. -/
def followUp (env : Environment) (id : NodeId) : FollowUp → BuildM Unit
  | .nothing => pure ()
  | .expectType => do
    let types ← onStore (StoreM.childrenOfKeyword id .type)
    blame env id (typeFault? types)
  | .expectSides =>
    Catalogue.sides.forM fun side => do
      let annotated ← onStore (StoreM.sideChildren id side)
      blame env id (sideFault? side annotated)
  | .recordVersion => update id Node.recordVersion

end BuildM

end StatementForest
