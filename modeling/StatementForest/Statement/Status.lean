/-!
# Status and conformance

The lifecycle status of a definition, and whether a module is implemented or
only imported for its definitions.

Main results:

- `Status.override_eq_max`: the status rule below a parent is the maximum in the
  order current, deprecated, obsolete.
-/

namespace StatementForest

/-- The lifecycle of a definition. -/
inductive Status where
  | current
  | deprecated
  | obsolete
  deriving DecidableEq, Repr, Inhabited

namespace Status

/-- The word of a status. -/
def text : Status → String
  | .current => "current"
  | .deprecated => "deprecated"
  | .obsolete => "obsolete"

/-- The status a word stands for. -/
def ofText? : String → Option Status
  | "current" => some .current
  | "deprecated" => some .deprecated
  | "obsolete" => some .obsolete
  | _ => none

/-- The place of a status in its lifecycle. -/
def rank : Status → Nat
  | .current => 0
  | .deprecated => 1
  | .obsolete => 2

/-- The later of two statuses. -/
def max (a b : Status) : Status :=
  if a.rank ≤ b.rank then b else a

/-- The status below a parent: an explicit `obsolete` always wins, `deprecated`
replaces only an inherited `current`, and `current` replaces nothing. -/
def override (inherited : Status) (explicit : Option Status) : Status :=
  match inherited, explicit with
  | _, some .obsolete => .obsolete
  | .current, some .deprecated => .deprecated
  | inherited, _ => inherited

/-- The status that results is the later one of the inherited and the declared one. -/
theorem override_eq_max (inherited : Status) (explicit : Option Status) :
    override inherited explicit = inherited.max (explicit.getD .current) := by
  rcases explicit with _ | _ | _ | _ <;> cases inherited <;> rfl

/-- The later one of two statuses has the greater rank. -/
theorem rank_max (a b : Status) : (a.max b).rank = Nat.max a.rank b.rank := by
  cases a <;> cases b <;> rfl

/-- The later one of two statuses is one of them. -/
theorem max_eq_or (a b : Status) : a.max b = a ∨ a.max b = b := by
  rw [max]
  split
  · exact .inr rfl
  · exact .inl rfl

end Status

/-- How a module takes part in a schema. -/
inductive Conformance where
  | implement
  | «import»
  deriving DecidableEq, Repr

namespace Conformance

/-- The word of a conformance. -/
def text : Conformance → String
  | .implement => "implement"
  | .import => "import"

/-- The conformance a word stands for. -/
def ofText? : String → Option Conformance
  | "implement" => some .implement
  | "import" => some .import
  | _ => none

end Conformance

end StatementForest
