import StatementForest.Command.Options
import StatementForest.Command.Outline
import StatementForest.Command.Report
import StatementForest.Data.Toml.Printer
import StatementForest.Data.Yaml.Printer
import StatementForest.Extension.Catalogue
import StatementForest.Grammar.Standard
import StatementForest.Workspace.Load

/-!
# Running commands

A command is a function of a workspace.  Its outcome holds what it prints, how it
ends, and the workspace with the files that it wrote.

Main results:

- `Command.workspace_run`: a command changes no file, except that it may write a configuration
  file to start from.

Current gaps:

- The texts that commands print are computed and not specified.
- Files are read as a whole.  Permissions and failures in the middle of a file are not modelled.
-/

namespace StatementForest

/-- How a command ends. -/
structure Outcome where
  /-- Zero when all is well, one when errors were found, two when the command failed. -/
  code : Nat := 0
  output : String := ""
  complaint : String := ""
  workspace : Workspace

namespace Command

/-- The name of the program. -/
def programName : String := "yangtree"

/-- The version of the program. -/
def programVersionText : String := "0.1.0"

/-- A failure as the message of a command. -/
def failureText : Failure → String
  | .file path cause => (Failure.file path cause).message ++ ": " ++ cause
  | failure => failure.message

/-- The outcome of a command that fails with a message. -/
def failed (w : Workspace) (message : String) : Outcome :=
  { code := 2, complaint := "Error: " ++ message ++ "\n", workspace := w }

/-- The configuration of a command, as its command line changes it. -/
def configurationOf (w : Workspace) (custom : Option String) (features : FeatureOptions) :
    Except String Configuration := do
  let c ← (w.configuration custom none).mapError failureText
  return { c with
    supportedFeatures := features.supported.or c.supportedFeatures
    pruning := if features.prune then some true else c.pruning }

/-- The documents at several paths. -/
def documentsOf (w : Workspace) (paths : List String) : Except String (List SchemaDocument) := do
  let files ← (w.collectDocuments paths).mapError ("Path not found: " ++ ·)
  files.mapM fun path =>
    (w.loadDocument path).map SchemaDocument.ofSpec |>.mapError failureText

/-- Build documents with the standard grammar and the known extensions. -/
def buildSchema (c : Configuration) (documents : List SchemaDocument) : Except Failure Schema :=
  Schema.build c Grammar.standard Catalogue.suppliers documents

/-- The level of a severity. -/
def levelOf : Severity → SeverityLevel
  | .info => .info
  | .hint => .hint
  | .warning => .warn
  | .error => .error

/-- Build documents and report the findings. -/
def checkDocuments (w : Workspace) (o : Options) (paths : List String) (format : ReportFormat)
    (threshold : Severity) (features : FeatureOptions) (stopAt : Option Severity) :
    Except String Outcome := do
  let base ← configurationOf w o.configuration features
  let c := { base with failFast := (stopAt.map levelOf).or base.failFast }
  let documents ← documentsOf w paths
  let finish (isClean : Bool) (r : Report) : Outcome :=
    { code := if isClean then 0 else 1
      output := match format with
        | .human => r.render o.coloured
        | .json => r.toJson
      workspace := w }
  match buildSchema c documents with
  | .ok schema =>
    return finish (!schema.log.hasErrors) (Report.ofSchema schema documents.length threshold)
  | .error (.failFast f) => return finish false (Report.ofStop c.policy documents.length f)
  | .error failure => throw (failureText failure)

/-- Build documents and show their trees. -/
def showTrees (w : Workspace) (o : Options) (paths : List String) (features : FeatureOptions)
    (module : Option String) : Except String Outcome := do
  let c ← configurationOf w o.configuration features
  let documents ← documentsOf w paths
  let schema ← (buildSchema c documents).mapError failureText
  let tops ←
    match module with
    | none => pure (schema.store.trees.toList.filterMap (·.top))
    | some name =>
      match schema.topStatement? name with
      | some top => pure [top]
      | none => throw ("Module '" ++ name ++ "' not found in input")
  return {
    output := String.join (tops.map (Outline.render schema.store o.coloured))
    workspace := w }

/-! ### Configuration files -/

/-- The name of a configuration file of a format. -/
def configurationName : ConfigurationFormat → String
  | .json => ".yangtreerc.json"
  | .toml => ".yangtreerc.toml"
  | .yaml => "yangtree.yaml"

/-- The text of a configuration file to start from. -/
def templateText (format : ConfigurationFormat) : String :=
  let template := Configuration.template.toData
  match format with
  | .json => Json.pretty template
  | .toml => Toml.render (template.asMembers?.getD [])
  | .yaml => Yaml.render template

/-- Write a configuration file to start from. -/
def writeTemplate (w : Workspace) (format : ConfigurationFormat) (force : Bool) :
    Except String Outcome := do
  let name := configurationName format
  if w.contains name && !force then
    throw ("Configuration file '" ++ name ++ "' already exists")
  let written ← (w.write name (templateText format)).mapError FileFault.message
  return {
    output := "✅ Created configuration file: " ++ name ++
      "\n   Edit the file to adjust severities and supported features.\n"
    workspace := written }

/-- Show the configuration that holds for a command. -/
def showSettings (w : Workspace) (o : Options) : Except String Outcome := do
  let source ←
    match o.configuration with
    | some path => pure (some path)
    | none => (w.discover ".").mapError failureText
  let c ← (w.configuration o.configuration none).mapError failureText
  let origin := match source with
    | some path => "# Loaded from " ++ path
    | none => "# No configuration file found, using defaults"
  return { output := origin ++ "\n" ++ Json.pretty c.toData ++ "\n", workspace := w }

/-! ### Command lines -/

/-- A short description of the commands. -/
def usage : String :=
  "Usage: yangtree [OPTIONS] [COMMAND]\n\nCommands: check, tree, config init, config show, " ++
    "version\n"

/-- Carry out what a command line asks for. -/
def perform (w : Workspace) (o : Options) : Except String Outcome :=
  match o.command with
  | .check paths format threshold features stopAt =>
    checkDocuments w o paths format threshold features stopAt
  | .tree paths features module => showTrees w o paths features module
  | .initConfiguration format force => writeTemplate w format force
  | .showConfiguration => showSettings w o
  | .version => .ok { output := programVersionText ++ "\n", workspace := w }
  | .programVersion =>
    .ok { output := programName ++ " " ++ programVersionText ++ "\n", workspace := w }
  | .help => .ok { output := usage, workspace := w }

/-- Run a command line in a workspace. -/
def run (w : Workspace) (words : List String) : Outcome :=
  match Options.parse words with
  | none => { code := 2, complaint := usage, workspace := w }
  | some o =>
    match perform w o with
    | .ok outcome => outcome
    | .error message => failed w message

/-! ### What a command changes -/

section Changes

variable {w : Workspace} {o : Options} {outcome : Outcome}

/-- What a bind ends with comes from a result of its first part. -/
theorem exists_of_bind_eq_ok {ε α β : Type} {x : Except ε α} {f : α → Except ε β} {b : β}
    (h : x >>= f = .ok b) : ∃ a, x = .ok a ∧ f a = .ok b := by
  rcases x with e | a
  · cases h
  · exact ⟨a, rfl, h⟩

/-- Checking documents writes no file. -/
theorem workspace_of_checkDocuments {paths : List String} {format : ReportFormat}
    {threshold : Severity} {features : FeatureOptions} {stopAt : Option Severity}
    (h : checkDocuments w o paths format threshold features stopAt = .ok outcome) :
    outcome.workspace = w := by
  obtain ⟨c, -, h⟩ := exists_of_bind_eq_ok h
  obtain ⟨documents, -, h⟩ := exists_of_bind_eq_ok h
  dsimp only at h
  split at h <;> cases h <;> rfl

/-- Showing trees writes no file. -/
theorem workspace_of_showTrees {paths : List String} {features : FeatureOptions}
    {module : Option String} (h : showTrees w o paths features module = .ok outcome) :
    outcome.workspace = w := by
  obtain ⟨c, -, h⟩ := exists_of_bind_eq_ok h
  obtain ⟨documents, -, h⟩ := exists_of_bind_eq_ok h
  obtain ⟨schema, -, h⟩ := exists_of_bind_eq_ok h
  dsimp only at h
  split at h
  · cases h
    rfl
  · split at h <;> cases h
    rfl

/-- Showing settings writes no file. -/
theorem workspace_of_showSettings (h : showSettings w o = .ok outcome) :
    outcome.workspace = w := by
  unfold showSettings at h
  split at h <;>
  · obtain ⟨source, -, h⟩ := exists_of_bind_eq_ok h
    obtain ⟨c, -, h⟩ := exists_of_bind_eq_ok h
    rw [← Except.ok.inj h]

/-- A template is written under the name of a configuration file. -/
theorem write_of_writeTemplate {format : ConfigurationFormat} {force : Bool}
    (h : writeTemplate w format force = .ok outcome) :
    w.write (configurationName format) (templateText format) = .ok outcome.workspace := by
  dsimp only [writeTemplate] at h
  split at h
  · cases h
  obtain ⟨written, hwritten, h⟩ := exists_of_bind_eq_ok h
  rcases hwrite : w.write (configurationName format) (templateText format) with fault | written'
  · rw [hwrite] at hwritten
    cases hwritten
  · rw [hwrite] at hwritten
    cases hwritten
    rw [← Except.ok.inj h]

/-- A command leaves the workspace as it is, unless it writes the template of a configuration to
its place. -/
theorem workspace_run (w : Workspace) (words : List String) :
    (run w words).workspace = w ∨
      ∃ format, w.write (configurationName format) (templateText format) =
        .ok (run w words).workspace := by
  rw [run]
  rcases Options.parse words with _ | o
  · exact .inl rfl
  dsimp only
  rcases hperform : perform w o with message | outcome
  · exact .inl rfl
  rw [perform] at hperform
  split at hperform
  · exact .inl (workspace_of_checkDocuments hperform)
  · exact .inl (workspace_of_showTrees hperform)
  · exact .inr ⟨_, write_of_writeTemplate hperform⟩
  · exact .inl (workspace_of_showSettings hperform)
  all_goals
    cases hperform
    exact .inl rfl

end Changes

end Command
end StatementForest
