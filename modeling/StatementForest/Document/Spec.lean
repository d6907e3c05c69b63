import StatementForest.Data.Read
import StatementForest.Document.Element
import StatementForest.Failure

/-!
# Document specifications

The written form of a document: a tree of element specifications together with
qualifier bindings.  Its elements get their scopes from the declarations of the
document itself and from the bindings written beside it.

The scope of an element is lexical.  From the outside in it consists of the
document's own qualifier, the one of its `belongs-to`, one for each `import`,
the bindings beside the document, and those of every element on the way; what
comes later hides what comes earlier.
-/

namespace StatementForest

/-- The written form of an element. -/
structure ElementSpec where
  name : String
  value : Option String := none
  line : Option Nat := none
  /-- Qualifier bindings for this element and those below it. -/
  bindings : Dictionary String := Dictionary.empty
  children : List ElementSpec := []
  deriving Inhabited

/-- The written form of a document. -/
structure DocumentSpec where
  /-- Name used in reports. -/
  source : Option String := none
  /-- The module of names without a qualifier, when given. -/
  home : Option String := none
  /-- Qualifier bindings for the whole document. -/
  bindings : Dictionary String := Dictionary.empty
  root : ElementSpec
  deriving Inhabited

namespace ElementSpec

/-- The first child of a given name. -/
def child? (spec : ElementSpec) (name : String) : Option ElementSpec :=
  spec.children.find? (·.name == name)

/-- The value of the first child of a given name. -/
def childValue? (spec : ElementSpec) (name : String) : Option String := do
  (← spec.child? name).value

mutual

/-- The element of a specification inside a scope. -/
def toElement (source : Option String) (scope : Scope) : ElementSpec → Element
  | ⟨name, value, line, bindings, children⟩ =>
    let scope := if bindings.isEmpty then scope else scope.bindAll bindings
    { name, value, line, source, scope, children := toElements source scope children }

/-- The elements of several specifications inside one scope. -/
def toElements (source : Option String) (scope : Scope) : List ElementSpec → List Element
  | [] => []
  | spec :: specs => toElement source scope spec :: toElements source scope specs

end

end ElementSpec

namespace DocumentSpec

/-- The module that names without a qualifier belong to.

A module owns its own statements, and the statements of a submodule belong to
the module that its `belongs-to` names. -/
def effectiveHome (spec : DocumentSpec) : String :=
  match spec.home with
  | some module => module
  | none =>
    if spec.root.name = "module" then spec.root.value.getD ""
    else if spec.root.name = "submodule" then (spec.root.childValue? "belongs-to").getD ""
    else ""

/-- The binding an `import` declares. -/
def importBinding? (spec : ElementSpec) : Option (String × String) := do
  if spec.name ≠ "import" then none
  let module ← spec.value
  let qualifier ← spec.childValue? "prefix"
  return (qualifier, module)

/-- The bindings that the document declares, the weakest first. -/
def declaredBindings (spec : DocumentSpec) : List (String × String) :=
  let own := (spec.root.childValue? "prefix").map (·, spec.effectiveHome)
  let owner := (spec.root.child? "belongs-to").bind fun b =>
    (b.childValue? "prefix").map (·, spec.effectiveHome)
  own.toList ++ owner.toList ++ spec.root.children.filterMap importBinding?

/-- The scope of the root element, without its own bindings. -/
def scope (spec : DocumentSpec) : Scope :=
  let declared := Dictionary.ofList spec.declaredBindings
  { home := spec.effectiveHome, bindings := declared.insertAll spec.bindings.entries }

/-- The element tree of a document. -/
def toElement (spec : DocumentSpec) : Element :=
  spec.root.toElement spec.source spec.scope

end DocumentSpec

end StatementForest
