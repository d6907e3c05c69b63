import StatementForest.Command.Style
import StatementForest.Data.Json.Printer
import StatementForest.Finding.Codec
import StatementForest.Schema.Basic

/-!
# Reports

The findings of a build and a summary of their numbers, for people or as JSON.
A report lists the more serious findings first.

Main results:

- `Report.total_counted`: a report counts each of its findings once.
- `Report.ofSchema_sorted`: the more serious findings of a schema come first.
-/

namespace StatementForest

/-- The numbers at the end of a report. -/
structure Summary where
  documents : Nat
  modules : Nat
  errors : Nat := 0
  warnings : Nat := 0
  hints : Nat := 0
  infos : Nat := 0
  deriving DecidableEq, Repr

namespace Summary

/-- Count a finding of a severity. -/
def record (s : Summary) : Severity → Summary
  | .error => { s with errors := s.errors + 1 }
  | .warning => { s with warnings := s.warnings + 1 }
  | .hint => { s with hints := s.hints + 1 }
  | .info => { s with infos := s.infos + 1 }

/-- The number of findings. -/
def total (s : Summary) : Nat := s.errors + s.warnings + s.hints + s.infos

theorem total_record (s : Summary) (severity : Severity) :
    (s.record severity).total = s.total + 1 := by
  cases severity <;> simp only [record, total] <;> omega

/-- The summary as lines for people. -/
def render (coloured : Bool) (s : Summary) : String :=
  let count (label : String) (style : Style) (n : Nat) : String :=
    if n = 0 then ""
    else "    " ++ label ++ ": " ++ style.paint coloured (toString n) ++ "\n"
  "\n" ++ Style.bold.paint coloured "Summary:" ++ "\n" ++
    "  Documents built: " ++ toString s.documents ++ "\n" ++
    "  Modules: " ++ toString s.modules ++ "\n" ++
    (if s.total = 0 then "" else "  Findings:\n") ++
    count "Errors" .red s.errors ++ count "Warnings" .yellow s.warnings ++
    count "Hints" .cyan s.hints ++ count "Info" .blue s.infos

/-- The summary as data. -/
def toData (s : Summary) : Data :=
  .record [("documents", .ofNat s.documents), ("modules", .ofNat s.modules),
    ("errors", .ofNat s.errors), ("warnings", .ofNat s.warnings), ("hints", .ofNat s.hints),
    ("info", .ofNat s.infos)]

end Summary

/-- Findings with their severities, and the summary. -/
structure Report where
  findings : List (Finding × Severity)
  summary : Summary

namespace Report

/-- The style in which the word of a severity is shown. -/
def severityStyle : Severity → Style
  | .error => .boldRed
  | .warning => .boldYellow
  | .hint => .boldCyan
  | .info => .boldBlue

/-- One finding as lines for people. -/
def renderFinding (coloured : Bool) (f : Finding) (severity : Severity) : String :=
  let headline := (severityStyle severity).paint coloured severity.text ++
    "[" ++ f.kind.code ++ "]: " ++ Style.bold.paint coloured f.message ++ "\n"
  match f.subject.origin? with
  | some origin =>
    headline ++ "  " ++ Style.blue.paint coloured "-->" ++ " " ++ origin.render ++ "\n"
  | none => headline

/-- A report for people. -/
def render (coloured : Bool) (r : Report) : String :=
  let lines := r.findings.map fun (f, severity) => renderFinding coloured f severity
  let nothing := if r.findings.isEmpty then
    Style.green.paint coloured "✅" ++ " No findings\n" else ""
  String.join lines ++ nothing ++ r.summary.render coloured

/-- One finding as data. -/
def findingData (f : Finding) (severity : Severity) : Data :=
  let origin := f.subject.origin?
  .record [("code", .text f.kind.code), ("kind", .text f.kind.text),
    ("severity", .text severity.text), ("message", .text f.message),
    ("source", .ofOption? (origin.bind (·.source))),
    ("statement", .ofOption? (origin.map (·.name))),
    ("line", .ofNat? (origin.bind (·.line)))]

/-- A report as JSON. -/
def toJson (r : Report) : String :=
  Json.pretty (.record [
    ("findings", .list (r.findings.map fun (f, severity) => findingData f severity)),
    ("summary", r.summary.toData)]) ++ "\n"

/-- The report of findings that a summary does not count yet. -/
def counted (summary : Summary) (findings : List (Finding × Severity)) : Report where
  findings
  summary := findings.foldl (fun s f => s.record f.2) summary

/-- Every finding of a report is counted once, by induction on the findings. -/
theorem total_counted (summary : Summary) (findings : List (Finding × Severity)) :
    (counted summary findings).summary.total = summary.total + findings.length := by
  induction findings generalizing summary with
  | nil => rfl
  | cons f findings ih =>
    have hrest : (counted summary (f :: findings)).summary =
        (counted (summary.record f.2) findings).summary := rfl
    rw [hrest, ih, Summary.total_record, List.length_cons]
    omega

/-- The report of a build that stopped at a finding. -/
def ofStop (policy : SeverityPolicy) (documents : Nat) (f : Finding) : Report :=
  let severity := (policy.severityOf f.kind).getD f.kind.defaultSeverity
  counted { documents, modules := 0 } [(f, severity)]

/-- The report of a schema, with the findings that reach a severity. -/
def ofSchema (schema : Schema) (documents : Nat) (threshold : Severity) : Report :=
  let modules := schema.store.trees.toList.countP (·.owner.isNone)
  let findings := (schema.log.atLeast threshold).filterMap fun f =>
    (schema.log.severityOf f).map (f, ·)
  counted { documents, modules } (findings.mergeSort fun a b => a.2.reaches b.2)

/-- A report lists the more serious findings of a schema first. -/
theorem ofSchema_sorted (schema : Schema) (documents : Nat) (threshold : Severity) :
    (ofSchema schema documents threshold).findings.Pairwise fun a b =>
      a.2.reaches b.2 = true := by
  refine List.pairwise_mergeSort (fun a b c hab hbc => ?_) (fun a b => ?_) _
  · simp only [Severity.reaches, decide_eq_true_eq] at hab hbc ⊢
    omega
  · simp only [Severity.reaches, Bool.or_eq_true, decide_eq_true_eq]
    omega

end Report

end StatementForest
