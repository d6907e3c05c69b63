import StatementForest.Grammar.Basic

/-!
# The standard grammar

Which statements of the core language may stand below which, for the statements
in common use.
-/

namespace StatementForest
namespace Grammar

/-- Statements that define data. -/
def dataDefinitions : List String :=
  ["container", "leaf", "leaf-list", "list", "choice", "anydata", "anyxml", "uses"]

/-- Documentation of a statement. -/
def documentation : List String :=
  ["description", "reference"]

/-- Status and documentation of a definition. -/
def lifecycle : List String :=
  ["status", "description", "reference"]

/-- Linkage and body of a module. -/
def linkageAndBody : List String :=
  ["import", "include", "revision", "extension", "feature", "identity", "typedef", "grouping",
   "container", "leaf", "leaf-list", "list", "choice", "anydata", "anyxml", "uses", "augment",
   "rpc", "notification", "deviation"]

/-- Header of a module apart from its identification. -/
def headerDocumentation : List String :=
  ["yang-version", "organization", "contact", "description", "reference"]

/-- What to tell when a restriction is violated. -/
def errorInformation : List String :=
  ["error-message", "error-app-tag", "description", "reference"]

/-- Statements without children of their own. -/
def childless : List String :=
  ["base", "config", "contact", "default", "description", "error-app-tag", "error-message",
   "fraction-digits", "if-feature", "key", "mandatory", "max-elements", "min-elements",
   "modifier", "namespace", "ordered-by", "organization", "path", "position", "prefix",
   "presence", "reference", "require-instance", "revision-date", "status", "unique", "units",
   "value", "yang-version", "yin-element"]

/-- The statements with children of their own. -/
def standardEntries : List (String × Cardinalities) :=
  [("module", {
        mandatorySingleton := ["namespace", "prefix"]
        optionalSingleton := headerDocumentation
        optionalMultiple := linkageAndBody }),
    ("submodule", {
        mandatorySingleton := ["belongs-to"]
        optionalSingleton := headerDocumentation
        optionalMultiple := linkageAndBody }),
    ("belongs-to", {
        mandatorySingleton := ["prefix"] }),
    ("import", {
        mandatorySingleton := ["prefix"]
        optionalSingleton := ["revision-date"] ++ documentation }),
    ("include", {
        optionalSingleton := ["revision-date"] ++ documentation }),
    ("revision", {
        optionalSingleton := documentation }),
    ("extension", {
        optionalSingleton := ["argument"] ++ lifecycle }),
    ("argument", {
        optionalSingleton := ["yin-element"] }),
    ("feature", {
        optionalSingleton := lifecycle
        optionalMultiple := ["if-feature"] }),
    ("identity", {
        optionalSingleton := lifecycle
        optionalMultiple := ["if-feature", "base"] }),
    ("typedef", {
        mandatorySingleton := ["type"]
        optionalSingleton := ["units", "default"] ++ lifecycle }),
    ("type", {
        optionalSingleton :=
          ["fraction-digits", "length", "path", "range", "require-instance"]
        optionalMultiple := ["base", "bit", "enum", "pattern", "type"] }),
    ("enum", {
        optionalSingleton := ["value"] ++ lifecycle
        optionalMultiple := ["if-feature"] }),
    ("bit", {
        optionalSingleton := ["position"] ++ lifecycle
        optionalMultiple := ["if-feature"] }),
    ("length", {
        optionalSingleton := errorInformation }),
    ("range", {
        optionalSingleton := errorInformation }),
    ("pattern", {
        optionalSingleton := ["modifier"] ++ errorInformation }),
    ("must", {
        optionalSingleton := errorInformation }),
    ("when", {
        optionalSingleton := documentation }),
    ("container", {
        optionalSingleton := ["when", "presence", "config"] ++ lifecycle
        optionalMultiple :=
          ["if-feature", "must", "typedef", "grouping"] ++ dataDefinitions ++
            ["action", "notification"] }),
    ("leaf", {
        mandatorySingleton := ["type"]
        optionalSingleton :=
          ["when", "units", "default", "config", "mandatory"] ++ lifecycle
        optionalMultiple := ["if-feature", "must"] }),
    ("leaf-list", {
        mandatorySingleton := ["type"]
        optionalSingleton :=
          ["when", "units", "config", "min-elements", "max-elements", "ordered-by"] ++ lifecycle
        optionalMultiple := ["if-feature", "must", "default"] }),
    ("list", {
        optionalSingleton :=
          ["when", "key", "config", "min-elements", "max-elements", "ordered-by"] ++ lifecycle
        optionalMultiple :=
          ["if-feature", "must", "unique", "typedef", "grouping"] ++ dataDefinitions ++
            ["action", "notification"] }),
    ("choice", {
        optionalSingleton := ["when", "default", "config", "mandatory"] ++ lifecycle
        optionalMultiple :=
          ["if-feature", "case", "container", "leaf", "leaf-list", "list", "choice", "anydata",
            "anyxml"] }),
    ("case", {
        optionalSingleton := ["when"] ++ lifecycle
        optionalMultiple := ["if-feature"] ++ dataDefinitions }),
    ("anydata", {
        optionalSingleton := ["when", "config", "mandatory"] ++ lifecycle
        optionalMultiple := ["if-feature", "must"] }),
    ("anyxml", {
        optionalSingleton := ["when", "config", "mandatory"] ++ lifecycle
        optionalMultiple := ["if-feature", "must"] }),
    ("grouping", {
        optionalSingleton := lifecycle
        optionalMultiple :=
          ["typedef", "grouping"] ++ dataDefinitions ++ ["action", "notification"] }),
    ("uses", {
        optionalSingleton := ["when"] ++ lifecycle
        optionalMultiple := ["if-feature", "refine", "augment"] }),
    ("refine", {
        optionalSingleton :=
          ["presence", "config", "mandatory", "min-elements", "max-elements"] ++ documentation
        optionalMultiple := ["if-feature", "must", "default"] }),
    ("augment", {
        optionalSingleton := ["when"] ++ lifecycle
        optionalMultiple :=
          ["if-feature"] ++ dataDefinitions ++ ["case", "action", "notification"] }),
    ("rpc", {
        optionalSingleton := lifecycle ++ ["input", "output"]
        optionalMultiple := ["if-feature", "typedef", "grouping"] }),
    ("action", {
        optionalSingleton := lifecycle ++ ["input", "output"]
        optionalMultiple := ["if-feature", "typedef", "grouping"] }),
    ("input", {
        optionalMultiple := ["must", "typedef", "grouping"] ++ dataDefinitions }),
    ("output", {
        optionalMultiple := ["must", "typedef", "grouping"] ++ dataDefinitions }),
    ("notification", {
        optionalSingleton := lifecycle
        optionalMultiple := ["if-feature", "must", "typedef", "grouping"] ++ dataDefinitions }),
    ("deviation", {
        mandatoryMultiple := ["deviate"]
        optionalSingleton := documentation }),
    ("deviate", {
        optionalSingleton :=
          ["units", "config", "mandatory", "min-elements", "max-elements", "type"]
        optionalMultiple := ["must", "unique", "default"] })]

/-- The grammar of the commonly used core statements. -/
def standard : Grammar :=
  ⟨Dictionary.ofList
    (standardEntries ++ childless.map fun name => (name, Cardinalities.mk [] [] [] []))⟩

end Grammar
end StatementForest
