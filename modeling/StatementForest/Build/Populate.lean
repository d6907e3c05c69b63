import StatementForest.Build.ChildPlan
import StatementForest.Build.Completion
import StatementForest.Build.Instantiate

/-!
# Populating statements

A fresh statement gets its children from the element it views, each child being
populated before the next one is made, and is then checked.  The recursion goes
from an element to its children, so it ends for every document.
-/

namespace StatementForest
namespace BuildM

/-- Carry out the steps for the children of a statement. -/
def runSteps (env : Environment) (id : NodeId) (name : String) :
    (steps : List ChildStep) →
      ((child : Element) → .extract child ∈ steps → BuildM Unit) → BuildM Unit
  | [], _ => pure ()
  | .extract child :: rest, extract => do
    extract child List.mem_cons_self
    runSteps env id name rest fun c h => extract c (List.mem_cons_of_mem _ h)
  | .repeated child :: rest, extract => do
    reportOn env id .cardinalityViolation (repeatedMessage child name)
    runSteps env id name rest fun c h => extract c (List.mem_cons_of_mem _ h)

/-- Complain about the children that an element lacks. -/
def reportMissing (env : Environment) (id : NodeId) (c : Cardinalities) (e : Element) :
    BuildM Unit :=
  (missingMessages c e).forM (reportOn env id .missingRequiredChild)

/-- Complain about the children that the grammar does not foresee. -/
def reportUnexpected (env : Environment) (c : Cardinalities) (e : Element) : BuildM Unit :=
  (unexpectedChildren c [] e.children).forM fun child =>
    let fault := unexpectedFault child.name e.name
    reportOnElement env child fault.1 fault.2

/-- Check a core statement whose children are in place, and number the children. -/
def completeCore (env : Environment) (id : NodeId) (k : Keyword) (c : Cardinalities)
    (e : Element) : BuildM Unit := do
  checkCoreArgument env id k
  checkContent env id k
  reportUnexpected env c e
  onStore (StoreM.numberChildren id)

/-- Check an extension whose children are in place. -/
def completeExtension (env : Environment) (id : NodeId) (c : ExtensionClass) : BuildM Unit :=
  match c with
  | .generic => pure ()
  | .ruled rule => do
    checkRule env id rule
    followUp env id rule.followUp

mutual

/-- Give a fresh statement its children and check it. -/
def populate (env : Environment) (id : NodeId) (e : Element) (v : Variant) : BuildM Unit := do
  match v with
  | .core k =>
    let c := env.grammar.below k
    runSteps env id e.name (grammarSteps c e.children) fun child h =>
      have := Element.sizeOf_lt_of_mem_children (mem_of_extract_mem_grammarSteps h)
      discard (extractChild env id child)
    reportMissing env id c e
    runSteps env id e.name (extensionSteps e.children) fun child h =>
      have := Element.sizeOf_lt_of_mem_children (mem_of_extract_mem_extensionSteps h)
      discard (extractChild env id child)
    completeCore env id k c e
  | .extension _ c =>
    runSteps env id e.name (freeSteps e.children) fun child h =>
      have := Element.sizeOf_lt_of_mem_children (mem_of_extract_mem_freeSteps h)
      discard (extractChild env id child)
    completeExtension env id c
termination_by (sizeOf e, 0)

/-- Make a statement of an element below a parent, and populate it. -/
def extractChild (env : Environment) (parent : NodeId) (e : Element) :
    BuildM (Option NodeId) := do
  let p ← node parent
  match ← onStore (StoreM.instantiate env.suppliers e (some parent) p.root) with
  | .rejected finding =>
    report env finding
    return none
  | .created id =>
    let n ← node id
    populate env id e n.variant
    return some id
termination_by (sizeOf e, 1)

end

/-- Populate a fresh statement from the element it views. -/
def process (env : Environment) (id : NodeId) : BuildM Unit := do
  let n ← node id
  populate env id n.element n.variant

/-- A core statement gets the children that the grammar asks for, then its extensions. -/
theorem populate_core (env : Environment) (id : NodeId) (e : Element) (k : Keyword) :
    populate env id e (.core k) = (do
      let c := env.grammar.below k
      runSteps env id e.name (grammarSteps c e.children)
        fun child _ => discard (extractChild env id child)
      reportMissing env id c e
      runSteps env id e.name (extensionSteps e.children)
        fun child _ => discard (extractChild env id child)
      completeCore env id k c e) := by
  rw [populate]

/-- An extension gets all children, and is then completed by its class. -/
theorem populate_extension (env : Environment) (id : NodeId) (e : Element)
    (supplier : Option Nat) (c : ExtensionClass) :
    populate env id e (.extension supplier c) = (do
      runSteps env id e.name (freeSteps e.children)
        fun child _ => discard (extractChild env id child)
      completeExtension env id c) := by
  rw [populate]

/-! ### Single checks -/

/-- Complain about a blank argument, and tell whether there was none. -/
def checkArgument (env : Environment) (id : NodeId) : BuildM Bool := do
  let n ← node id
  match blankFault? n.name n.argument with
  | none => return true
  | some fault =>
    reportOn env id fault.1 fault.2
    return false

/-- Complain about an argument that is no identifier, and tell whether it is one. -/
def checkIdentifier (env : Environment) (id : NodeId) : BuildM Bool := do
  let n ← node id
  match identifierFault? n.argument with
  | none => return true
  | some fault =>
    reportOn env id fault.1 fault.2
    return false

end BuildM
end StatementForest
