import StatementForest.Finding.Basic

/-!
# The finding log

A log keeps findings in the order of their first report, each at most once, and
applies a severity policy.  A policy may change the severity of a kind or
suppress the kind; suppressed findings never enter a log.

Main results:

- `FindingLog.add_snd_iff`: a report is recorded exactly when the finding is
  neither suppressed nor known.
- `FindingLog.nodup_add`: recording keeps the entries free of duplicates.
-/

namespace StatementForest

/-- The severity of every kind; `none` suppresses the kind. -/
structure SeverityPolicy where
  severityOf : FindingKind → Option Severity

namespace SeverityPolicy

/-- Every kind with its default severity. -/
def standard : SeverityPolicy := ⟨fun k => some k.defaultSeverity⟩

instance : Inhabited SeverityPolicy := ⟨standard⟩

/-- Give one kind a severity, or suppress it with `none`. -/
def assign (p : SeverityPolicy) (kind : FindingKind) (severity : Option Severity) :
    SeverityPolicy :=
  ⟨fun k => if k = kind then severity else p.severityOf k⟩

/-- Whether findings of a kind are never recorded. -/
def suppresses (p : SeverityPolicy) (kind : FindingKind) : Bool :=
  (p.severityOf kind).isNone

end SeverityPolicy

/-- Recorded findings under a policy. -/
structure FindingLog where
  policy : SeverityPolicy := SeverityPolicy.standard
  entries : List Finding := []
  deriving Inhabited

namespace FindingLog

/-- A log without findings. -/
def empty (policy : SeverityPolicy) : FindingLog := { policy }

/-- The severity of a finding under the policy of the log. -/
def severityOf (log : FindingLog) (f : Finding) : Option Severity :=
  log.policy.severityOf f.kind

/-- Record a finding, and tell whether it was new. -/
def add (log : FindingLog) (f : Finding) : FindingLog × Bool :=
  if log.policy.suppresses f.kind || f ∈ log.entries then (log, false)
  else ({ log with entries := log.entries ++ [f] }, true)

/-- Record several findings in order. -/
def addAll (log : FindingLog) (findings : List Finding) : FindingLog :=
  findings.foldl (fun log f => (log.add f).1) log

/-- A finding is taken in when its kind is not suppressed and it is new. -/
theorem add_snd_iff {log : FindingLog} {f : Finding} :
    (log.add f).2 = true ↔ log.policy.suppresses f.kind = false ∧ f ∉ log.entries := by
  unfold add
  by_cases hs : log.policy.suppresses f.kind = true <;> by_cases hm : f ∈ log.entries <;>
    simp [hs, hm]

/-- Adding repeats no finding. -/
theorem nodup_add {log : FindingLog} {f : Finding} (h : log.entries.Nodup) :
    (log.add f).1.entries.Nodup := by
  unfold add
  split
  · exact h
  · next hnew =>
    simp only [Bool.or_eq_true, decide_eq_true_eq, not_or] at hnew
    rw [List.nodup_append]
    refine ⟨h, by simp, ?_⟩
    intro a ha b hb
    simp only [List.mem_singleton] at hb
    rintro rfl
    exact hnew.2 (hb ▸ ha)

/-- Adding keeps the policy. -/
theorem policy_add (log : FindingLog) (f : Finding) : (log.add f).1.policy = log.policy := by
  rw [add]
  split <;> rfl

/-- Adding several findings keeps the policy. -/
theorem policy_addAll (log : FindingLog) (findings : List Finding) :
    (log.addAll findings).policy = log.policy := by
  induction findings generalizing log with
  | nil => rfl
  | cons f rest ih => exact (ih _).trans (policy_add log f)

/-- Every finding at least as serious as a threshold. -/
def atLeast (log : FindingLog) (threshold : Severity) : List Finding :=
  log.entries.filter fun f => (log.severityOf f).any (·.reaches threshold)

/-- Every finding of one kind. -/
def ofKind (log : FindingLog) (kind : FindingKind) : List Finding :=
  log.entries.filter (·.kind = kind)

/-- Every finding about one statement. -/
def forStatement (log : FindingLog) (node : NodeId) : List Finding :=
  log.entries.filter (·.node? = some node)

/-- The findings of each kind that has any, in the order of the kinds. -/
def groups (log : FindingLog) : List (FindingKind × List Finding) :=
  (FindingKind.all.map fun k => (k, log.ofKind k)).filter (!·.2.isEmpty)

/-- The number of findings of one severity. -/
def count (log : FindingLog) (severity : Severity) : Nat :=
  log.entries.countP fun f => log.severityOf f = some severity

/-- Whether a finding is an error. -/
def hasErrors (log : FindingLog) : Bool :=
  log.entries.any fun f => log.severityOf f = some .error

/-- The number of findings. -/
def total (log : FindingLog) : Nat := log.entries.length

/-- The order of reports: the more serious finding first. -/
def precedes (log : FindingLog) (f g : Finding) : Bool :=
  match log.severityOf f, log.severityOf g with
  | some a, some b => a.reaches b
  | _, none => true
  | none, some _ => false

/-- Put the more serious findings first and keep the order of report otherwise. -/
def sort (log : FindingLog) : FindingLog :=
  { log with entries := log.entries.mergeSort log.precedes }

/-- Keep only the findings that satisfy a test. -/
def retain (log : FindingLog) (keep : Finding → Bool) : FindingLog :=
  { log with entries := log.entries.filter keep }

/-- Take every finding out. -/
def drain (log : FindingLog) : List Finding × FindingLog :=
  (log.entries, { log with entries := [] })

/-- Forget every finding. -/
def clear (log : FindingLog) : FindingLog := log.drain.2

end FindingLog

end StatementForest
