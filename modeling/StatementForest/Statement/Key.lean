import StatementForest.Statement.Keyword

/-!
# Statement keys

A key names the module that defines a statement and the statement's name in it.
The statements of the core language are defined by a module of their own, so a
core statement and an extension of the same name have different keys.
-/

namespace StatementForest

/-- The defining module and the name of a statement. -/
structure Key where
  owner : String
  name : String
  deriving DecidableEq, Repr, Inhabited

namespace Key

/-- The module that defines the core language. -/
def coreModule : String := "YANG CORE"

/-- The key of a statement of the core language. -/
def core (name : String) : Key := ⟨coreModule, name⟩

/-- The key of a keyword. -/
def ofKeyword (k : Keyword) : Key := core k.text

/-- Whether the core language defines the statement. -/
def isCore (key : Key) : Bool := key.owner == coreModule

/-- Core keys are written as their names, others with their module in front. -/
def render (key : Key) : String :=
  if key.isCore then key.name else key.owner ++ ":" ++ key.name

/-- Keys are ordered by module, then by name. -/
def compare (a b : Key) : Ordering :=
  (Ord.compare a.owner b.owner).then (Ord.compare a.name b.name)

@[simp]
theorem isCore_core (name : String) : (core name).isCore = true := by
  simp [core, isCore]

end Key

end StatementForest
