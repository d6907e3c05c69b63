import StatementForest.Collection.Dictionary
import StatementForest.Failure
import StatementForest.Finding.Log

/-!
# Configurations

A configuration says when to stop, which features are supported, what happens to
statements whose features are not, and how serious each kind of finding is.
Every field may be left out and has a default then.

Main results:

- `Configuration.validate_eq_ok_iff`: a configuration is accepted exactly when
  all codes in it are codes of kinds.

Current gaps:

- The schema that describes configuration files to editors is left out.
-/

namespace StatementForest

/-- The severity that a configuration gives to a kind, or `off` to suppress it. -/
inductive SeverityLevel where
  | off
  | info
  | hint
  | warn
  | error
  deriving DecidableEq, Repr

namespace SeverityLevel

/-- The severity of a level, if it has one. -/
def severity? : SeverityLevel → Option Severity
  | .off => none
  | .info => some .info
  | .hint => some .hint
  | .warn => some .warning
  | .error => some .error

/-- The word of a level. -/
def text : SeverityLevel → String
  | .off => "off"
  | .info => "info"
  | .hint => "hint"
  | .warn => "warn"
  | .error => "error"

/-- The level a word stands for; `warn` has two spellings. -/
def ofText? : String → Option SeverityLevel
  | "off" => some .off
  | "info" => some .info
  | "hint" => some .hint
  | "warn" | "warning" => some .warn
  | "error" => some .error
  | _ => none

/-- A level is read back from its text. -/
@[simp]
theorem ofText?_text (l : SeverityLevel) : ofText? l.text = some l := by
  cases l <;> rfl

end SeverityLevel

/-- What is reported about a submodule whose module is not part of the input. -/
inductive OrphanPolicy where
  /-- The submodule has no namespace, and its `belongs-to` is reported. -/
  | resolveToNone
  /-- The submodule itself is reported as well. -/
  | emitFinding
  deriving DecidableEq, Repr

namespace OrphanPolicy

/-- The word of a policy. -/
def text : OrphanPolicy → String
  | .resolveToNone => "resolveToNone"
  | .emitFinding => "emitFinding"

/-- The policy a word stands for. -/
def ofText? : String → Option OrphanPolicy
  | "resolveToNone" => some .resolveToNone
  | "emitFinding" => some .emitFinding
  | _ => none

/-- A policy for orphans is read back from its text. -/
@[simp]
theorem ofText?_text (p : OrphanPolicy) : ofText? p.text = some p := by
  cases p <;> rfl

end OrphanPolicy

/-- The settings of a build. -/
structure Configuration where
  /-- The level at which to stop. -/
  failFast : Option SeverityLevel := none
  /-- The supported features; without a list all are. -/
  supportedFeatures : Option (List String) := none
  /-- Whether statements are taken out when their features are not supported. -/
  pruning : Option Bool := none
  orphanPolicy : Option OrphanPolicy := none
  /-- The levels of the kinds with the given codes. -/
  overrides : Option (Dictionary SeverityLevel) := none
  /-- The codes of the kinds that are never recorded. -/
  suppressed : Option (List String) := none
  /-- Whether documents may be built side by side, which changes no result. -/
  parallel : Option Bool := none
  deriving Inhabited

namespace Configuration

/-! ### Settings with their defaults -/

/-- The severity at which to stop, if any. -/
def stopAt (c : Configuration) : Option Severity := c.failFast.bind (·.severity?)

/-- Whether statements are taken out when their features are not supported. -/
def prunes (c : Configuration) : Bool := c.pruning.getD false

/-- What is reported about a submodule without a module. -/
def orphans (c : Configuration) : OrphanPolicy := c.orphanPolicy.getD .resolveToNone

/-- Whether documents may be built side by side. -/
def isParallel (c : Configuration) : Bool := c.parallel.getD true

/-- A configuration to start from. -/
def template : Configuration where
  pruning := some false
  orphanPolicy := some .resolveToNone
  overrides := some (Dictionary.ofList [(FindingKind.emptyDocumentation.code, .warn)])
  parallel := some true

/-! ### Severities -/

/-- The overrides in the order of their codes. -/
def overrideEntries (c : Configuration) : List (String × SeverityLevel) :=
  (c.overrides.getD Dictionary.empty).entries

/-- The codes of a configuration, those of overrides first. -/
def codes (c : Configuration) : List String :=
  c.overrideEntries.map (·.1) ++ c.suppressed.getD []

/-- Fail when a code of the configuration is not the code of a kind. -/
def validate (c : Configuration) : Except Failure Unit :=
  match c.codes.find? fun code => (FindingKind.ofCode? code).isNone with
  | some code => .error (.config (.unknownCode code))
  | none => .ok ()

/-- A configuration is valid when each code that it names is one of a kind. -/
theorem validate_eq_ok_iff {c : Configuration} :
    c.validate = .ok () ↔ ∀ code ∈ c.codes, (FindingKind.ofCode? code).isSome = true := by
  unfold validate
  split
  · next code h =>
    have hmem := List.mem_of_find?_eq_some h
    have hnone := List.find?_some h
    simp only [reduceCtorEq, false_iff]
    intro hall
    have := hall code hmem
    simp_all
  · next h =>
    simp only [true_iff]
    intro code hmem
    have := List.find?_eq_none.mp h code hmem
    rwa [Bool.not_eq_true, Option.isNone_eq_false_iff] at this

/-- Give the kind of a code a severity. -/
def assignCode (p : SeverityPolicy) (code : String) (severity : Option Severity) :
    SeverityPolicy :=
  match FindingKind.ofCode? code with
  | some kind => p.assign kind severity
  | none => p

/-- The severities of a configuration.  A suppressed kind has no severity even when
an override gives it one. -/
def policy (c : Configuration) : SeverityPolicy :=
  let overridden := c.overrideEntries.foldl
    (fun p (code, level) => assignCode p code level.severity?) SeverityPolicy.standard
  (c.suppressed.getD []).foldl (fun p code => assignCode p code none) overridden

end Configuration

end StatementForest
