import StatementForest.Configuration.Basic
import StatementForest.Data.Parse
import StatementForest.Data.Read

/-!
# The written form of configurations

A configuration is a record.  Fields that are left out, or null, have their
defaults, and fields without a value are not written.
-/

namespace StatementForest
namespace Configuration

/-- The names of the fields of a configuration. -/
def fieldNames : List String :=
  ["failFast", "supportedFeatures", "removeNodesNotSatisfyingIfFeature",
    "orphanSubmodulePolicy", "severityOverrides", "suppressedFindings", "parallel"]

/-- What a reader of a configuration looks at. -/
def shape : Shape :=
  .record [("failFast", .scalar), ("supportedFeatures", .list .scalar),
    ("removeNodesNotSatisfyingIfFeature", .scalar), ("orphanSubmodulePolicy", .scalar),
    ("severityOverrides", .dictionary .scalar), ("suppressedFindings", .list .scalar),
    ("parallel", .scalar)]

/-- Read a configuration of a format. -/
def ofData? (format : Format) (d : Data) : Option Configuration := do
  let members ← d.asRecord? format fieldNames fieldNames.length
  let level := Data.asWord? format SeverityLevel.ofText?
  return {
    failFast := ← Data.optional? level members "failFast"
    supportedFeatures := ← Data.optional? Data.asTexts? members "supportedFeatures"
    pruning := ← Data.optional? Data.asBool? members "removeNodesNotSatisfyingIfFeature"
    orphanPolicy := ← Data.optional? (Data.asWord? format OrphanPolicy.ofText?)
      members "orphanSubmodulePolicy"
    overrides := ← Data.optional? (Data.asDictionary? level) members "severityOverrides"
    suppressed := ← Data.optional? Data.asTexts? members "suppressedFindings"
    parallel := ← Data.optional? Data.asBool? members "parallel" }

/-- A member of a record, if it has a value. -/
def memberOf {α : Type} (name : String) (write : α → Data) (value : Option α) :
    List (String × Data) :=
  (value.map fun v => (name, write v)).toList

/-- Write a configuration. -/
def toData (c : Configuration) : Data :=
  let level (l : SeverityLevel) : Data := .text l.text
  .record <|
    memberOf "failFast" level c.failFast ++
    memberOf "supportedFeatures" Data.ofTexts c.supportedFeatures ++
    memberOf "removeNodesNotSatisfyingIfFeature" Data.bool c.pruning ++
    memberOf "orphanSubmodulePolicy" (fun p => .text p.text) c.orphanPolicy ++
    memberOf "severityOverrides"
      (fun d => .record (d.entries.map fun e => (e.1, level e.2))) c.overrides ++
    memberOf "suppressedFindings" Data.ofTexts c.suppressed ++
    memberOf "parallel" Data.bool c.parallel

/-- Read a configuration of a format.  `path` names the text in a failure. -/
def ofText (format : Format) (path text : String) : Except Failure Configuration :=
  match (format.parse shape text).bind (ofData? format) with
  | some c => .ok c
  | none => .error (.config (.malformed path "not a configuration"))

end Configuration
end StatementForest
