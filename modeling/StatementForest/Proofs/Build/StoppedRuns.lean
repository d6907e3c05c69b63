import StatementForest.Proofs.Build.StoreGrowth
import StatementForest.Proofs.Build.UniformRelations

/-!
# Stopping cuts a run short

A run with a severity at which to stop does what the run without it does, until the
first finding that reaches the severity ends it.  `StopsShort` relates the two runs of a
building step, and holds of whatever steps are made of.

Main results:

- Theorem `FindingLog.first_addAll`: the first serious finding of a log stays the first.
- Theorem `StopsShort.bind_of`: steps that are cut can be put together.
- Theorem `StopsShort.report`: recording a finding is cut at that finding.
- Theorem `StopsShort.uniform`: so the whole of a build is cut.
-/

namespace StatementForest

/-! ## The first serious finding -/

/-- Whether findings like this one are at least as serious as a threshold. -/
def SeverityPolicy.reaches (p : SeverityPolicy) (t : Severity) (f : Finding) : Bool :=
  (p.severityOf f.kind).any (·.reaches t)

namespace FindingLog

variable {log log' : FindingLog} {t : Severity} {f : Finding}

/-- The first finding of a log that is at least as serious as a threshold. -/
def first (log : FindingLog) (t : Severity) : Option Finding :=
  log.entries.find? (log.policy.reaches t)

/-- The first serious finding is the first of the serious ones. -/
theorem head?_atLeast (log : FindingLog) (t : Severity) : (log.atLeast t).head? = log.first t :=
  List.head?_filter

/-- The first serious finding stays the first. -/
theorem Grows.first_eq_some (h : Grows log log') (hf : log.first t = some f) :
    log'.first t = some f := by
  obtain ⟨new, hnew⟩ := h.entries
  rw [first, h.policy, ← hnew, List.find?_append]
  rw [first] at hf
  rw [hf, Option.some_or]

/-- A finding that is serious enough is not suppressed. -/
theorem not_suppresses_of_reaches {p : SeverityPolicy} (h : p.reaches t f = true) :
    p.suppresses f.kind = false := by
  rw [SeverityPolicy.reaches] at h
  rw [SeverityPolicy.suppresses]
  rcases hsev : p.severityOf f.kind with _ | severity
  · rw [hsev] at h
    cases h
  · rfl

/-- Whether a finding is serious enough is read off its severity. -/
theorem reaches_of_severityOf {severity : Severity} (h : log.severityOf f = some severity)
    (t : Severity) : log.policy.reaches t f = severity.reaches t := by
  rw [SeverityPolicy.reaches, ← severityOf, h, Option.any_some]

/-- A recorded finding is the first serious one when it is serious and none was before. -/
theorem first_add (log : FindingLog) (f : Finding) (t : Severity) :
    (log.add f).1.first t =
      (log.first t).or (if log.policy.reaches t f then some f else none) := by
  by_cases hf : log.policy.reaches t f = true
  · rw [if_pos hf, add, not_suppresses_of_reaches hf, Bool.false_or]
    by_cases hmem : f ∈ log.entries
    · -- the finding is known, so there has been a serious one
      rw [if_pos (decide_eq_true hmem)]
      rcases hfirst : log.first t with _ | g
      · exact absurd hf (List.find?_eq_none.mp hfirst f hmem)
      · rfl
    · rw [if_neg (by simpa using hmem)]
      change (log.entries ++ [f]).find? (log.policy.reaches t) = _
      rw [List.find?_append, List.find?_singleton, if_pos hf]
      rfl
  · rw [if_neg hf, Option.or_none, add]
    split
    · rfl
    · change (log.entries ++ [f]).find? (log.policy.reaches t) = _
      rw [List.find?_append, List.find?_singleton, if_neg hf, Option.or_none]
      rfl

/-- Of recorded findings the first serious one counts when none was before. -/
theorem first_addAll (log : FindingLog) (findings : List Finding) (t : Severity) :
    (log.addAll findings).first t =
      (log.first t).or (findings.find? (log.policy.reaches t)) := by
  induction findings generalizing log with
  | nil => exact (Option.or_none).symm
  | cons f rest ih =>
    change ((log.add f).1.addAll rest).first t = _
    rw [ih, first_add, policy_add, Option.or_assoc, List.find?_cons]
    congr 1
    rcases log.policy.reaches t f <;> rfl

end FindingLog

/-! ## Cut runs -/

/-- The same building without a severity at which to stop. -/
def Environment.steady (env : Environment) : Environment := { env with stopAt := none }

/-- The same building with a severity at which to stop. -/
def Environment.hasty (env : Environment) (t : Severity) : Environment :=
  { env with stopAt := some t }

/-- The first step adds to the log.  Where no finding is serious yet, the second step
does the same unless the first one adds a serious finding, and then ends with the first
of these. -/
structure StopsShort (t : Severity) {α : Type} (full cut : BuildM α) : Prop where
  grows : ∀ state, FindingLog.Grows state.log (full state).2.log
  eq : ∀ state, (full state).2.log.first t = none → cut state = full state
  stops : ∀ state f, state.log.first t = none → (full state).2.log.first t = some f →
    ∃ u, cut state = (.error (.failFast f), u)

namespace StopsShort

variable {env : Environment} {t : Severity} {α β : Type}

/-- A step that leaves the log as it is is never cut. -/
theorem of_log_eq {m : BuildM α} (h : ∀ state, (m state).2.log = state.log) : StopsShort t m m where
  grows state := by
    rw [h]
    exact FindingLog.Grows.refl _
  eq _ _ := rfl
  stops state f hnone hsome := by
    rw [h, hnone] at hsome
    cases hsome

/-- Returning a value stops nowhere. -/
theorem pure (a : α) : StopsShort t (Pure.pure a : BuildM α) (Pure.pure a) := of_log_eq fun _ => rfl

/-- A step on the store stops nowhere. -/
theorem onStore (m : StoreM α) : StopsShort t (BuildM.onStore m) (BuildM.onStore m) :=
  of_log_eq fun state => by rw [onStore_apply]

/-- Reading the store stops nowhere. -/
theorem store : StopsShort t BuildM.store BuildM.store := of_log_eq fun _ => rfl

/-- The second of two steps is cut only when the first one is not. -/
theorem bind_of {full cut : BuildM α} {f f' : α → BuildM β} (hm : StopsShort t full cut)
    (hf : ∀ a, full.CanReturn a → StopsShort t (f a) (f' a)) :
    StopsShort t (full >>= f) (cut >>= f') := by
  have hgrows : ∀ state, FindingLog.Grows state.log (full state).2.log ∧
      FindingLog.Grows (full state).2.log ((full >>= f) state).2.log := by
    intro state
    refine ⟨hm.grows state, ?_⟩
    rw [bind_apply]
    rcases hrun : full state with ⟨e | a, u⟩
    · exact FindingLog.Grows.refl _
    · exact (hf a ⟨state, u, hrun⟩).grows u
  have hsame : ∀ state, (full state).2.log.first t = none →
      (cut >>= f') state = (full >>= f') state := by
    intro state hnone
    rw [bind_apply, bind_apply, hm.eq state hnone]
  refine ⟨fun state => (hgrows state).1.trans (hgrows state).2, fun state hnone => ?_,
    fun state g hnone hsome => ?_⟩
  · have hfull : (full state).2.log.first t = none := by
      rcases h : (full state).2.log.first t with _ | g
      · rfl
      · rw [(hgrows state).2.first_eq_some h] at hnone
        cases hnone
    rw [hsame state hfull]
    rw [bind_apply] at hnone ⊢
    rw [bind_apply]
    rcases hrun : full state with ⟨e | a, u⟩
    · rfl
    · rw [hrun] at hnone
      exact (hf a ⟨state, u, hrun⟩).eq u hnone
  · rcases h : (full state).2.log.first t with _ | g'
    · rw [hsame state h, bind_apply]
      rw [bind_apply] at hsome
      rcases hrun : full state with ⟨e | a, u⟩
      · rw [hrun] at h hsome
        rw [h] at hsome
        cases hsome
      · rw [hrun] at h hsome
        exact (hf a ⟨state, u, hrun⟩).stops u g h hsome
    · -- the first step is cut, and what it adds stays the first
      obtain ⟨u, hu⟩ := hm.stops state g' hnone h
      rw [(hgrows state).2.first_eq_some h] at hsome
      cases hsome
      exact ⟨u, bind_apply_of_error hu⟩

/-! ### Reports -/

/-- Recording a finding is cut at that finding. -/
theorem report (f : Finding) :
    StopsShort t (BuildM.report env.steady f) (BuildM.report (env.hasty t) f) := by
  refine ⟨fun state => ?_, fun state hnone => ?_, fun state g hnone hsome => ?_⟩ <;>
    rcases hsev : state.log.severityOf f with _ | severity
  · rw [BuildM.report_apply_of_none hsev]
    exact FindingLog.Grows.refl _
  · rw [BuildM.report_apply_of_some hsev]
    exact FindingLog.grows_add _ f
  · rw [BuildM.report_apply_of_none hsev, BuildM.report_apply_of_none hsev]
  · rw [BuildM.report_apply_of_some hsev] at hnone
    change (state.log.add f).1.first t = none at hnone
    rw [FindingLog.first_add, Option.or_eq_none_iff,
      FindingLog.reaches_of_severityOf hsev] at hnone
    have hnot : ¬ severity.reaches t = true := fun h => by
      rw [if_pos h] at hnone
      cases hnone.2
    rw [BuildM.report_apply_of_some hsev, BuildM.report_apply_of_some hsev]
    rw [if_neg, if_neg]
    · simp [Environment.steady]
    · simpa [Environment.hasty] using hnot
  · rw [BuildM.report_apply_of_none hsev, hnone] at hsome
    cases hsome
  · rw [BuildM.report_apply_of_some hsev] at hsome
    change (state.log.add f).1.first t = some g at hsome
    rw [FindingLog.first_add, hnone, Option.none_or,
      FindingLog.reaches_of_severityOf hsev] at hsome
    split at hsome
    · next hstop =>
      cases hsome
      refine ⟨BuildM.reported state f, ?_⟩
      rw [BuildM.report_apply_of_some hsev, if_pos]
      simpa [Environment.hasty] using hstop
    · cases hsome

/-- Two runs of a build, of which the second one is cut, are related throughout. -/
theorem uniform : Uniform env none (some t) (StopsShort t) where
  pure := pure
  bind_of := bind_of
  look _ h := bind_of (onStore _) fun n _ => h n
  store _ h := bind_of store fun s _ => h s
  onStore _ _ := onStore _
  reportOn _ _ _ := bind_of (onStore _) fun _ _ => report _
  reportApart f _ := report f

end StopsShort
end StatementForest
