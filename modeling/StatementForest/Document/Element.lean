import StatementForest.Collection.Dictionary
import StatementForest.Finding.Basic
import StatementForest.Text.Blank

/-!
# Document elements

A document is a tree of named elements with optional values.  Every element
knows the qualifiers that are in scope where it was written, so a statement that
views the element resolves names as its author meant them.

Main results:

- `Element.sizeOf_lt_of_mem_children`: a child is smaller than its parent, which
  is why recursion over elements ends.
-/

namespace StatementForest

/-- The qualifiers bound at some place of a document. -/
structure Scope where
  /-- The module that names without a qualifier belong to. -/
  home : String
  /-- The modules that qualifiers stand for. -/
  bindings : Dictionary String := Dictionary.empty
  deriving DecidableEq, Inhabited

namespace Scope

/-- The module a qualifier stands for. -/
def module? (scope : Scope) (qualifier : String) : Option String :=
  scope.bindings.find? qualifier

/-- Bind a qualifier, hiding an earlier binding. -/
def bind (scope : Scope) (qualifier module : String) : Scope :=
  { scope with bindings := scope.bindings.insert qualifier module }

/-- Bind every qualifier of a dictionary. -/
def bindAll (scope : Scope) (bindings : Dictionary String) : Scope :=
  { scope with bindings := scope.bindings.insertAll bindings.entries }

/-- The module and the local name that a possibly qualified name refers to. -/
def resolve? (scope : Scope) (name : String) : Option (String × String) :=
  match Text.splitAtFirst ':' name with
  | some (qualifier, localName) => (scope.module? qualifier).map fun m => (m, localName)
  | none => some (scope.home, name)

end Scope

/-- One element of a document. -/
structure Element where
  name : String
  value : Option String
  line : Option Nat
  source : Option String
  scope : Scope
  children : List Element
  deriving Inhabited

namespace Element

theorem sizeOf_lt_of_mem_children {child parent : Element} (h : child ∈ parent.children) :
    sizeOf child < sizeOf parent := by
  cases parent with
  | mk name value line source scope children =>
    have := List.sizeOf_lt_of_mem h
    simp only [Element.mk.sizeOf_spec]
    simp only at this
    omega

/-- Where the element was written. -/
def origin (e : Element) : Origin := ⟨e.source, e.name, e.line⟩

/-- Whether the name carries a qualifier, as the names of extensions do. -/
def isQualified (e : Element) : Bool := e.name.toList.contains ':'

/-- The qualifier and the rest of the name. -/
def splitName (e : Element) : Option String × String :=
  match Text.splitAtFirst ':' e.name with
  | some (qualifier, localName) => (some qualifier, localName)
  | none => (none, e.name)

/-- The value without blank ends, or the empty text. -/
def argument (e : Element) : String := (e.value.map Text.trim).getD ""

/-- Whether the element has a child of a given name. -/
def hasChild (e : Element) (name : String) : Bool :=
  e.children.any (·.name == name)

end Element

end StatementForest
