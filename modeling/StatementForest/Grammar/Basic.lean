import StatementForest.Collection.Dictionary
import StatementForest.Statement.Keyword

/-!
# Grammars

A grammar tells, for each statement of the core language, which children it must
have exactly once, at least once, at most once, or any number of times.  A
statement without an entry has no children at all.
-/

namespace StatementForest

/-- The names of the children of one statement, by how often they may occur. -/
structure Cardinalities where
  /-- Exactly once. -/
  mandatorySingleton : List String := []
  /-- At least once. -/
  mandatoryMultiple : List String := []
  /-- At most once. -/
  optionalSingleton : List String := []
  /-- Any number of times. -/
  optionalMultiple : List String := []
  deriving DecidableEq, Repr, Inhabited

namespace Cardinalities

/-- Whether a name occurs in one of the four lists. -/
def allows (c : Cardinalities) (name : String) : Bool :=
  c.mandatorySingleton.contains name || c.mandatoryMultiple.contains name ||
    c.optionalSingleton.contains name || c.optionalMultiple.contains name

/-- Whether no child is named. -/
def isEmpty (c : Cardinalities) : Bool :=
  c.mandatorySingleton.isEmpty && c.mandatoryMultiple.isEmpty &&
    c.optionalSingleton.isEmpty && c.optionalMultiple.isEmpty

end Cardinalities

/-- The cardinalities of the statements of a language. -/
structure Grammar where
  statements : Dictionary Cardinalities := Dictionary.empty
  deriving Inhabited

namespace Grammar

/-- The grammar without entries. -/
def empty : Grammar := {}

/-- The cardinalities of a statement, if it has an entry. -/
def find? (g : Grammar) (name : String) : Option Cardinalities :=
  g.statements.find? name

/-- The cardinalities below a keyword. -/
def below (g : Grammar) (keyword : Keyword) : Cardinalities :=
  (g.find? keyword.text).getD {}

/-- Set the cardinalities of one statement. -/
def insert (g : Grammar) (name : String) (c : Cardinalities) : Grammar :=
  ⟨g.statements.insert name c⟩

/-- The number of entries. -/
def size (g : Grammar) : Nat := g.statements.size

/-- Whether there are no entries. -/
def isEmpty (g : Grammar) : Bool := g.statements.isEmpty

end Grammar

end StatementForest
