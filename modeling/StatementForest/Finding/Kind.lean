/-!
# Kinds of findings

A finding belongs to one of a fixed set of kinds.  Every kind has a short code
for reports and overrides, a word for its written form, and a severity that
holds unless a policy says otherwise.

Main results:

- `FindingKind.ofCode?_code`, `FindingKind.ofText?_text`: a kind is found again
  by its code and by its word.
-/

namespace StatementForest

/-- How serious a finding is. -/
inductive Severity where
  | info
  | hint
  | warning
  | error
  deriving DecidableEq, Repr

namespace Severity

/-- Every severity, the least serious first. -/
def all : List Severity := [.info, .hint, .warning, .error]

/-- The word of a severity. -/
def text : Severity → String
  | .info => "info"
  | .hint => "hint"
  | .warning => "warning"
  | .error => "error"

/-- The severity a word stands for. -/
def ofText? : String → Option Severity
  | "info" => some .info
  | "hint" => some .hint
  | "warning" => some .warning
  | "error" => some .error
  | _ => none

/-- The place of a severity, the least serious first. -/
def rank : Severity → Nat
  | .info => 0
  | .hint => 1
  | .warning => 2
  | .error => 3

/-- Whether a severity is at least as serious as a threshold. -/
def reaches (s threshold : Severity) : Bool :=
  threshold.rank ≤ s.rank

end Severity

/-- What a finding is about. -/
inductive FindingKind where
  | unspecified
  | failFast
  | invalidRootStatement
  | invalidSyntax
  | illegalChildStatement
  | missingRequiredChild
  | invalidExtension
  | unresolvablePrefix
  | unresolvableImport
  | unresolvableInclude
  | unresolvableBelongsTo
  | orphanSubmodule
  | cardinalityViolation
  | invalidIdentifier
  | invalidValue
  | featureCannotBeSupported
  | emptyDocumentation
  | invalidStatus
  | illegalIfFeatureSyntax
  | unresolvableDerivedType
  | identityCycle
  | unresolvableGrouping
  | enumWithoutValue
  | bitWithoutPosition
  | invalidDeviateProperty
  deriving DecidableEq, Repr

namespace FindingKind

/-- Every kind, in the order of reports. -/
def all : List FindingKind :=
  [.unspecified, .failFast, .invalidRootStatement, .invalidSyntax, .illegalChildStatement,
    .missingRequiredChild, .invalidExtension, .unresolvablePrefix, .unresolvableImport,
    .unresolvableInclude, .unresolvableBelongsTo, .orphanSubmodule, .cardinalityViolation,
    .invalidIdentifier, .invalidValue, .featureCannotBeSupported, .emptyDocumentation,
    .invalidStatus, .illegalIfFeatureSyntax, .unresolvableDerivedType, .identityCycle,
    .unresolvableGrouping, .enumWithoutValue, .bitWithoutPosition, .invalidDeviateProperty]

/-- The code of a kind. -/
def code : FindingKind → String
  | .unspecified => "P000"
  | .failFast => "P009"
  | .invalidRootStatement => "P013"
  | .invalidSyntax => "P015"
  | .illegalChildStatement => "P018"
  | .missingRequiredChild => "P019"
  | .invalidExtension => "P025"
  | .unresolvablePrefix => "P033"
  | .unresolvableImport => "P034"
  | .unresolvableInclude => "P037"
  | .unresolvableBelongsTo => "P039"
  | .orphanSubmodule => "P048"
  | .cardinalityViolation => "P051"
  | .invalidIdentifier => "P052"
  | .invalidValue => "P053"
  | .featureCannotBeSupported => "P086"
  | .emptyDocumentation => "P101"
  | .invalidStatus => "P102"
  | .illegalIfFeatureSyntax => "P103"
  | .unresolvableDerivedType => "P113"
  | .identityCycle => "P130"
  | .unresolvableGrouping => "P121"
  | .enumWithoutValue => "P143"
  | .bitWithoutPosition => "P144"
  | .invalidDeviateProperty => "P167"

/-- The word of a kind. -/
def text : FindingKind → String
  | .unspecified => "unspecified"
  | .failFast => "fail-fast"
  | .invalidRootStatement => "invalid-root-statement"
  | .invalidSyntax => "invalid-syntax"
  | .illegalChildStatement => "illegal-child-statement"
  | .missingRequiredChild => "missing-required-child"
  | .invalidExtension => "invalid-extension"
  | .unresolvablePrefix => "unresolvable-prefix"
  | .unresolvableImport => "unresolvable-import"
  | .unresolvableInclude => "unresolvable-include"
  | .unresolvableBelongsTo => "unresolvable-belongs-to"
  | .orphanSubmodule => "orphan-submodule"
  | .cardinalityViolation => "cardinality-violation"
  | .invalidIdentifier => "invalid-identifier"
  | .invalidValue => "invalid-value"
  | .featureCannotBeSupported => "feature-cannot-be-supported"
  | .emptyDocumentation => "empty-documentation"
  | .invalidStatus => "invalid-status"
  | .illegalIfFeatureSyntax => "illegal-if-feature-syntax"
  | .unresolvableDerivedType => "unresolvable-derived-type"
  | .identityCycle => "identity-cycle"
  | .unresolvableGrouping => "unresolvable-grouping"
  | .enumWithoutValue => "enum-without-value"
  | .bitWithoutPosition => "bit-without-position"
  | .invalidDeviateProperty => "invalid-deviate-property"

/-- The kind with a given code. -/
def ofCode? (code : String) : Option FindingKind :=
  all.find? fun k => k.code == code

/-- The kind with a given word. -/
def ofText? (text : String) : Option FindingKind :=
  all.find? fun k => k.text == text

/-- A kind is found under its code. -/
@[simp]
theorem ofCode?_code (k : FindingKind) : ofCode? k.code = some k := by
  cases k <;> rfl

/-- A kind is read back from its text. -/
@[simp]
theorem ofText?_text (k : FindingKind) : ofText? k.text = some k := by
  cases k <;> rfl

/-- The severity of a kind unless a policy says otherwise. -/
def defaultSeverity : FindingKind → Severity
  | .emptyDocumentation | .orphanSubmodule | .enumWithoutValue | .bitWithoutPosition
  | .unspecified => .warning
  | .failFast => .info
  | _ => .error

end FindingKind

end StatementForest
