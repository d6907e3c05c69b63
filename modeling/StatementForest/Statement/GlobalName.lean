import StatementForest.Statement.Key

/-!
# Global names

Features and identities are known by the namespace and the module that define
them and by their name in that module.  Global names are ordered by these three
parts, the namespace first.
-/

namespace StatementForest

/-- The name of a definition that other modules can refer to. -/
structure GlobalName where
  namespaceUri : String
  module : String
  localName : String
  deriving DecidableEq, Repr, Inhabited

namespace GlobalName

/-- The module and the name in it. -/
def key (n : GlobalName) : Key := ⟨n.module, n.localName⟩

/-- The module and the name in it, as messages show them. -/
def render (n : GlobalName) : String := n.module ++ ":" ++ n.localName

/-- The order of global names. -/
def compare (a b : GlobalName) : Ordering :=
  (Ord.compare a.namespaceUri b.namespaceUri).then (a.key.compare b.key)

/-- Whether a global name stands before or equals another. -/
def precedes (a b : GlobalName) : Bool := (a.compare b).isLE

end GlobalName

end StatementForest
