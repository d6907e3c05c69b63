/-!
# Feature conditions

A condition is a Boolean expression over the names of features.  A chain of `and`
or `or` at one level is one node with all of its operands.
-/

namespace StatementForest
namespace Condition

/-- A condition on the supported features. -/
inductive Expression where
  | feature (name : String)
  | not (operand : Expression)
  | all (operands : List Expression)
  | any (operands : List Expression)
  deriving Inhabited, Repr

namespace Expression

mutual

/-- The truth value of a condition when `supported` decides on the features. -/
def holds (supported : String → Bool) : Expression → Bool
  | .feature name => supported name
  | .not e => !holds supported e
  | .all es => holdsAll supported es
  | .any es => holdsAny supported es

/-- Whether all conditions hold. -/
def holdsAll (supported : String → Bool) : List Expression → Bool
  | [] => true
  | e :: es => holds supported e && holdsAll supported es

/-- Whether one of the conditions holds. -/
def holdsAny (supported : String → Bool) : List Expression → Bool
  | [] => false
  | e :: es => holds supported e || holdsAny supported es

end

mutual

/-- The names in a condition, from left to right. -/
def names : Expression → List String
  | .feature name => [name]
  | .not e => names e
  | .all es | .any es => namesOf es

/-- The names in several conditions. -/
def namesOf : List Expression → List String
  | [] => []
  | e :: es => names e ++ namesOf es

end

mutual

/-- A condition with each operator in front of its operands, in parentheses. -/
def render : Expression → String
  | .feature name => name
  | .not e => "(not " ++ render e ++ ")"
  | .all es => "(and" ++ renderAll es ++ ")"
  | .any es => "(or" ++ renderAll es ++ ")"

/-- Several conditions, each behind a blank. -/
def renderAll : List Expression → String
  | [] => ""
  | e :: es => " " ++ render e ++ renderAll es

end

end Expression

end Condition
end StatementForest
