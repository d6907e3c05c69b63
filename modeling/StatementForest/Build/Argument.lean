import StatementForest.Condition.Parser
import StatementForest.Finding.Kind
import StatementForest.Statement.Keyword
import StatementForest.Statement.Status
import StatementForest.Text.Blank
import StatementForest.Text.Date
import StatementForest.Text.Identifier
import StatementForest.Text.Numeral

/-!
# Arguments

Which arguments a rule accepts, and what is wrong with those it does not accept.
Blank ends do not count, except where the rule only asks whether there is an
argument at all.
-/

namespace StatementForest

/-- The kind and the message of something wrong. -/
abbrev Fault := FindingKind × String

/-- What is wrong with a blank argument. -/
def blankFault? (name argument : String) : Option Fault :=
  if argument.isEmpty then
    some (.invalidSyntax, "statement '" ++ name ++ "' requires an argument.")
  else none

/-- What is wrong with an argument that is no identifier. -/
def identifierFault? (argument : String) : Option Fault :=
  if Text.isIdentifier argument then none
  else some (.invalidIdentifier, "'" ++ argument ++ "' is not a valid YANG identifier.")

namespace ArgumentRule

/-- Whether an argument without blank ends is a positive integer or unbounded. -/
def isMaxElements (argument : String) : Bool :=
  argument == "unbounded" || (Text.readUnsigned64 argument).any (1 ≤ ·)

/-- Whether an argument without blank ends is an integer within bounds. -/
def isWithin (least greatest : Int) (argument : String) : Bool :=
  (Text.readSigned64 argument).any fun i => least ≤ i && i ≤ greatest

/-- What is wrong with an argument that is not blank. -/
def contentFault? (rule : ArgumentRule) (name argument : String) : Option Fault :=
  let quoted := "'" ++ argument ++ "'"
  match rule with
  | .required | .present | .absent | .documentation => none
  | .boolean =>
    if argument == "true" || argument == "false" then none
    else some (.invalidValue,
      "statement '" ++ name ++ "' requires 'true' or 'false' as argument.")
  | .identifier => identifierFault? argument
  | .reference =>
    if Text.isReference argument then none
    else some (.invalidIdentifier, quoted ++ " is not a valid YANG identifier.")
  | .oneOf words =>
    if words.contains argument then none
    else some (.invalidValue, quoted ++ " is not a valid argument for '" ++ name ++
      "'; expected one of: " ++ ", ".intercalate words ++ ".")
  | .status =>
    if (Status.ofText? argument).isSome then none
    else some (.invalidStatus,
      quoted ++ " is not a valid status; expected one of: current, deprecated, obsolete.")
  | .date =>
    if Text.isDate argument then none
    else some (.invalidValue, quoted ++ " is not a valid date (expected YYYY-MM-DD).")
  | .integer least greatest =>
    if isWithin least greatest argument then none
    else some (.invalidValue, quoted ++ " is not a valid value for '" ++ name ++
      "' (allowed: " ++ toString least ++ ".." ++ toString greatest ++ ").")
  | .maxElements =>
    if isMaxElements argument then none
    else some (.invalidValue, quoted ++ " is not a valid value for '" ++ name ++
      "' (positive integer or 'unbounded').")
  | .ifFeature =>
    match Condition.parse argument with
    | .ok _ => none
    | .error fault =>
      some (.illegalIfFeatureSyntax,
        "Invalid if-feature expression " ++ quoted ++ ": " ++ fault.message)

/-- What is wrong with the value of a statement of a given name. -/
def fault? (rule : ArgumentRule) (name : String) (value : Option String) : Option Fault :=
  let argument := (value.map Text.trim).getD ""
  let missing := (FindingKind.invalidSyntax, "statement '" ++ name ++ "' requires an argument.")
  match rule with
  | .present => if value.isNone then some missing else none
  | .absent =>
    if value.isSome then
      some (.invalidSyntax, "statement '" ++ name ++ "' does not take an argument.")
    else none
  | .documentation =>
    match value with
    | none => some missing
    | some _ =>
      if argument.isEmpty then
        some (.emptyDocumentation, "statement '" ++ name ++ "' has empty text.")
      else none
  | rule => (blankFault? name argument).or (rule.contentFault? name argument)

end ArgumentRule

end StatementForest
