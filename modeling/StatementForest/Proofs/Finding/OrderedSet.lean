import Mathlib.Algebra.GroupWithZero.Nat
import Mathlib.Data.List.Sort
import StatementForest.Finding.Log
import StatementForest.Proofs.Build.StoreGrowth

/-!
# The finding log is an ordered set

Whatever is done to a log of findings, it holds no finding twice and none that its policy
suppresses.  Reports are added at the end, findings that are removed leave the others in
their order, and sorting moves the more serious ones to the front and changes nothing
else.  What is read off a log agrees: its severities, its kinds and its numbers are about
the same findings.

Main results:

- Theorem `FindingLog.Orderly.perform`: every operation keeps the log in order.
- Theorem `FindingLog.sort_sorts`: sorting is a stable permutation by severity.
- Theorem `FindingLog.Orderly.views`: the views of a log in order agree with each other.
- Theorem `FindingLog.orderedSet_run`: after any operations the log is an ordered set.
-/

namespace StatementForest
namespace FindingLog

variable {p : SeverityPolicy} {log : FindingLog}

/-! ## Operations -/

/-- What can be done to a log. -/
inductive Operation where
  | add (f : Finding)
  | addAll (findings : List Finding)
  | sort
  | retain (keep : Finding → Bool)
  | drain
  | clear

/-- The log after an operation. -/
def perform (log : FindingLog) : Operation → FindingLog
  | .add f => (log.add f).1
  | .addAll findings => log.addAll findings
  | .sort => log.sort
  | .retain keep => log.retain keep
  | .drain => log.drain.2
  | .clear => log.clear

/-- The log after several operations. -/
def run (log : FindingLog) (operations : List Operation) : FindingLog :=
  operations.foldl perform log

/-- What every log keeps: its policy, no finding twice, and none that is suppressed. -/
structure Orderly (p : SeverityPolicy) (log : FindingLog) : Prop where
  policy : log.policy = p
  nodup : log.entries.Nodup
  shown : ∀ f ∈ log.entries, p.suppresses f.kind = false

namespace Orderly

/-- An empty log is in order. -/
theorem empty (p : SeverityPolicy) : Orderly p (FindingLog.empty p) where
  policy := rfl
  nodup := List.nodup_nil
  shown _ hf := absurd hf List.not_mem_nil

/-- A log stays in order when a finding is added. -/
theorem add (h : Orderly p log) (f : Finding) : Orderly p (log.add f).1 where
  policy := (policy_add log f).trans h.policy
  nodup := nodup_add h.nodup
  shown g hg := by
    by_cases hnew : (log.add f).2 = true
    · obtain hg | rfl := mem_add log hg
      · exact h.shown g hg
      · exact h.policy ▸ (add_snd_iff.mp hnew).1
    · -- a report that is not new leaves the log as it was
      rw [FindingLog.add] at hg hnew
      split at hg
      · exact h.shown g hg
      · next hold => exact absurd (by rw [if_neg hold]) hnew

/-- A log stays in order when several findings are added. -/
theorem addAll (h : Orderly p log) (findings : List Finding) :
    Orderly p (log.addAll findings) := by
  induction findings generalizing log with
  | nil => exact h
  | cons f rest ih => exact ih (h.add f)

/-- A log stays in order when its findings are permuted or some of them are left out. -/
theorem of_subperm (h : Orderly p log) {entries : List Finding}
    (hsub : List.Subperm entries log.entries) : Orderly p { log with entries } where
  policy := h.policy
  nodup := by
    obtain ⟨kept, hperm, hkept⟩ := hsub
    exact hperm.nodup_iff.mp (h.nodup.sublist hkept)
  shown f hf := h.shown f (hsub.subset hf)

/-- A log stays in order when it is sorted. -/
theorem sort (h : Orderly p log) : Orderly p log.sort :=
  h.of_subperm (List.mergeSort_perm _ _).subperm

/-- A log stays in order when only some findings are retained. -/
theorem retain (h : Orderly p log) (keep : Finding → Bool) : Orderly p (log.retain keep) :=
  h.of_subperm (List.filter_sublist.subperm)

/-- A log stays in order when it is cleared. -/
theorem clear (h : Orderly p log) : Orderly p log.clear :=
  h.of_subperm (List.nil_subperm)

/-- Every operation keeps the log in order. -/
theorem perform (h : Orderly p log) (operation : Operation) :
    Orderly p (log.perform operation) :=
  match operation with
  | .add f => h.add f
  | .addAll findings => h.addAll findings
  | .sort => h.sort
  | .retain keep => h.retain keep
  | .drain => h.clear
  | .clear => h.clear

/-- A log stays in order under any operations. -/
theorem run (h : Orderly p log) (operations : List Operation) :
    Orderly p (log.run operations) := by
  induction operations generalizing log with
  | nil => exact h
  | cons operation rest ih => exact ih (h.perform operation)

/-- Every finding of a log in order has a severity. -/
theorem exists_severity (h : Orderly p log) {f : Finding} (hf : f ∈ log.entries) :
    ∃ severity, log.severityOf f = some severity := by
  have hshown := h.shown f hf
  rw [SeverityPolicy.suppresses, Option.isNone_eq_false_iff, ← h.policy] at hshown
  exact Option.isSome_iff_exists.mp hshown

end Orderly

/-! ## Reports -/

/-- A new finding goes to the end of the log. -/
theorem entries_add_of_new {f : Finding} (h : (log.add f).2 = true) :
    (log.add f).1.entries = log.entries ++ [f] := by
  rw [add] at h ⊢
  split at h
  · exact absurd h Bool.false_ne_true
  · next hnew => rw [if_neg hnew]

/-- A finding that is there already, or is suppressed, changes nothing. -/
theorem add_of_old {f : Finding} (h : (log.add f).2 = false) : (log.add f).1 = log := by
  rw [add] at h ⊢
  split at h
  · next hold => rw [if_pos hold]
  · exact absurd h.symm Bool.false_ne_true

/-- New findings that are not suppressed are recorded in their order. -/
theorem addAll_of_new {findings : List Finding} (hnodup : (log.entries ++ findings).Nodup)
    (hshown : ∀ f ∈ findings, log.policy.suppresses f.kind = false) :
    log.addAll findings = { log with entries := log.entries ++ findings } := by
  induction findings generalizing log with
  | nil => rw [List.append_nil]; rfl
  | cons f rest ih =>
    have hf : f ∉ log.entries := fun hmem =>
      (List.nodup_append.mp hnodup).2.2 f hmem f List.mem_cons_self rfl
    have hadd : (log.add f).1 = { log with entries := log.entries ++ [f] } := by
      rw [add, hshown f List.mem_cons_self, decide_eq_false hf]
      rfl
    have hrest : (log.add f).1.addAll rest = { log with entries := log.entries ++ f :: rest } := by
      rw [hadd, ih]
      · rw [List.append_assoc]
        rfl
      · rw [List.append_assoc]
        exact hnodup
      · exact fun g hg => hshown g (List.mem_cons_of_mem f hg)
    exact hrest

/-! ## Sorting -/

/-- One log is the other one with the more serious findings first. -/
structure Sorts (log sorted : FindingLog) : Prop where
  /-- No finding is added or lost. -/
  perm : sorted.entries.Perm log.entries
  /-- No finding comes before a more serious one. -/
  descending : sorted.entries.Pairwise fun f g =>
    ∀ a b, log.severityOf f = some a → log.severityOf g = some b → b.rank ≤ a.rank
  /-- The findings of one severity keep their order. -/
  stable : ∀ severity : Severity,
    sorted.entries.filter (log.severityOf · = some severity) =
      log.entries.filter (log.severityOf · = some severity)

/-- A finding precedes another one that is no more serious. -/
theorem precedes_iff {f g : Finding} :
    log.precedes f g = true ↔
      ∀ b, log.severityOf g = some b → ∃ a, log.severityOf f = some a ∧ b.rank ≤ a.rank := by
  unfold precedes Severity.reaches
  cases log.severityOf f <;> cases log.severityOf g <;> simp

/-- What precedes a finding precedes all that this one precedes. -/
theorem precedes_trans (f g h : Finding) (hfg : log.precedes f g = true)
    (hgh : log.precedes g h = true) : log.precedes f h = true := by
  rw [precedes_iff] at *
  intro c hc
  obtain ⟨b, hb, hcb⟩ := hgh c hc
  obtain ⟨a, ha, hba⟩ := hfg b hb
  exact ⟨a, ha, hcb.trans hba⟩

/-- Of two findings one precedes the other. -/
theorem precedes_total (f g : Finding) : (log.precedes f g || log.precedes g f) = true := by
  unfold precedes Severity.reaches
  cases log.severityOf f <;> cases log.severityOf g <;> simp [Nat.le_total]

/-- Sorting is a stable permutation by severity. -/
theorem sort_sorts (log : FindingLog) : Sorts log log.sort where
  perm := List.mergeSort_perm _ _
  descending := by
    refine (List.pairwise_mergeSort precedes_trans precedes_total log.entries).imp ?_
    intro f g hfg a b ha hb
    obtain ⟨a', ha', hle⟩ := precedes_iff.mp hfg b hb
    cases ha.symm.trans ha'
    exact hle
  stable severity := by
    -- the findings of one severity are sorted already, so they stay a sublist
    let ofSeverity : Finding → Bool := (log.severityOf · = some severity)
    have hperm : log.sort.entries.Perm log.entries := List.mergeSort_perm _ _
    have hsorted : (log.entries.filter ofSeverity).Pairwise (log.precedes · ·) := by
      refine List.pairwise_of_forall_mem_list fun f hf g hg => precedes_iff.mpr ?_
      intro b hb
      have hf := of_decide_eq_true (List.mem_filter.mp hf).2
      have hg := of_decide_eq_true (List.mem_filter.mp hg).2
      cases hb.symm.trans hg
      exact ⟨_, hf, le_rfl⟩
    have hsub := List.sublist_mergeSort precedes_trans precedes_total hsorted
      List.filter_sublist
    have hfilter := hsub.filter ofSeverity
    simp only [List.filter_filter, Bool.and_self] at hfilter
    exact (hfilter.eq_of_length_le (hperm.filter _).length_eq.le).symm

/-! ## Views -/

/-- What is read off a log is about the same findings. -/
structure ViewsAgree (log : FindingLog) : Prop where
  /-- Every finding reaches the least severity. -/
  atLeast_info : log.atLeast .info = log.entries
  /-- Every kind has one group. -/
  nodup_kinds : (log.groups.map Prod.fst).Nodup
  /-- The groups are the findings of the kinds in their order, where there are any. -/
  mem_groups : ∀ kind findings, (kind, findings) ∈ log.groups ↔
    findings = log.entries.filter (·.kind = kind) ∧ findings ≠ []
  /-- The groups together hold every finding once. -/
  groups_perm : (log.groups.flatMap Prod.snd).Perm log.entries
  /-- The numbers of findings of each severity add up. -/
  sum_count : (Severity.all.map log.count).sum = log.total
  /-- There are errors if their number says so. -/
  hasErrors_iff : log.hasErrors = true ↔ 0 < log.count .error

/-- A group holds the findings of one kind, in the order of the log. -/
theorem mem_groups_iff {kind : FindingKind} {findings : List Finding} :
    (kind, findings) ∈ log.groups ↔
      findings = log.entries.filter (·.kind = kind) ∧ findings ≠ [] := by
  have hall : kind ∈ FindingKind.all := by cases kind <;> decide
  simp only [groups, List.mem_filter, List.mem_map, Prod.mk.injEq, ofKind, Bool.not_eq_true',
    List.isEmpty_eq_false_iff]
  constructor
  · rintro ⟨⟨_, -, rfl, rfl⟩, hne⟩
    exact ⟨rfl, hne⟩
  · rintro ⟨rfl, hne⟩
    exact ⟨⟨kind, hall, rfl, rfl⟩, hne⟩

/-- There is one group for each kind. -/
theorem nodup_kinds_groups (log : FindingLog) : (log.groups.map Prod.fst).Nodup := by
  have hsub : (log.groups.map Prod.fst).Sublist FindingKind.all := by
    have hgroups : log.groups.Sublist (FindingKind.all.map fun k => (k, log.ofKind k)) :=
      List.filter_sublist
    have h := hgroups.map Prod.fst
    rwa [List.map_map, Function.comp_def, List.map_id'] at h
  exact List.Nodup.sublist hsub (by decide)

/-- The groups hold every finding of the log once. -/
theorem groups_perm (h : log.entries.Nodup) :
    (log.groups.flatMap Prod.snd).Perm log.entries := by
  refine (List.perm_ext_iff_of_nodup ?_ h).mpr fun f => ?_
  · refine List.nodup_flatMap.mpr ⟨?_, ?_⟩
    · rintro ⟨kind, findings⟩ hgroup
      rw [(mem_groups_iff.mp hgroup).1]
      exact h.filter _
    · -- the kind of a finding tells its group
      refine (List.pairwise_map.mp (nodup_kinds_groups log)).imp_of_mem ?_
      rintro ⟨k, fs⟩ ⟨k', fs'⟩ hg hg' hne f hf hf'
      rw [(mem_groups_iff.mp hg).1] at hf
      rw [(mem_groups_iff.mp hg').1] at hf'
      have hk := of_decide_eq_true (List.mem_filter.mp hf).2
      have hk' := of_decide_eq_true (List.mem_filter.mp hf').2
      exact hne (hk.symm.trans hk')
  · constructor
    · intro hf
      obtain ⟨⟨kind, findings⟩, hgroup, hf⟩ := List.mem_flatMap.mp hf
      rw [(mem_groups_iff.mp hgroup).1] at hf
      exact List.mem_of_mem_filter hf
    · intro hf
      have hmem : f ∈ log.entries.filter (·.kind = f.kind) :=
        List.mem_filter.mpr ⟨hf, decide_eq_true rfl⟩
      exact List.mem_flatMap.mpr
        ⟨(f.kind, _), mem_groups_iff.mpr ⟨rfl, List.ne_nil_of_mem hmem⟩, hmem⟩

/-- Findings that have a severity each are counted once. -/
theorem sum_countP (severityOf : Finding → Option Severity) {findings : List Finding}
    (h : ∀ f ∈ findings, ∃ severity, severityOf f = some severity) :
    (Severity.all.map fun severity =>
      findings.countP (severityOf · = some severity)).sum = findings.length := by
  induction findings with
  | nil => rfl
  | cons f rest ih =>
    have hrest := ih fun g hg => h g (List.mem_cons_of_mem f hg)
    obtain ⟨severity, hf⟩ := h f List.mem_cons_self
    simp only [Severity.all, List.map_cons, List.map_nil, List.sum_cons, List.sum_nil,
      List.countP_cons, hf, List.length_cons] at hrest ⊢
    cases severity <;> simp <;> omega

/-- The views of a log in order agree with each other. -/
theorem Orderly.views (h : Orderly p log) : ViewsAgree log where
  atLeast_info := by
    refine List.filter_eq_self.mpr fun f hf => ?_
    obtain ⟨severity, hs⟩ := h.exists_severity hf
    rw [hs]
    exact decide_eq_true (Nat.zero_le severity.rank)
  nodup_kinds := nodup_kinds_groups log
  mem_groups _ _ := mem_groups_iff
  groups_perm := groups_perm h.nodup
  sum_count := sum_countP log.severityOf fun _ hf => h.exists_severity hf
  hasErrors_iff := by
    rw [hasErrors, count, List.countP_pos_iff, List.any_eq_true]

/-! ## Ordered sets -/

/-- A log that is an ordered set under a policy, before and after each operation. -/
structure OrderedSet (p : SeverityPolicy) (log : FindingLog) : Prop where
  /-- No finding stands twice, and none is suppressed. -/
  orderly : Orderly p log
  /-- A report is recorded if the finding is neither suppressed nor present. -/
  add_iff : ∀ f, (log.add f).2 = true ↔ p.suppresses f.kind = false ∧ f ∉ log.entries
  /-- A finding that is recorded is the last one. -/
  add_new : ∀ f, (log.add f).2 = true →
    (log.add f).1 = { log with entries := log.entries ++ [f] }
  /-- A report that is not recorded changes nothing. -/
  add_old : ∀ f, (log.add f).2 = false → (log.add f).1 = log
  /-- The findings that are kept stand in their order. -/
  retain : ∀ keep, (log.retain keep).entries.Sublist log.entries ∧
    ∀ f, f ∈ (log.retain keep).entries ↔ f ∈ log.entries ∧ keep f = true
  /-- Sorting moves the more serious findings to the front. -/
  sort : Sorts log log.sort
  /-- Draining hands out every finding. -/
  drain : log.drain = (log.entries, FindingLog.empty p)
  /-- Clearing leaves nothing. -/
  clear : log.clear = FindingLog.empty p
  /-- What was there before can be recorded again. -/
  again : log.clear.addAll log.entries = log ∧
    ∀ f, (log.clear.add f).2 = true ↔ p.suppresses f.kind = false
  /-- The views agree with each other. -/
  views : ViewsAgree log

/-- A log that is cleared is empty and keeps its policy. -/
theorem Orderly.clear_eq (h : Orderly p log) : log.clear = FindingLog.empty p :=
  congrArg (fun policy => ({ policy, entries := [] } : FindingLog)) h.policy

/-- A log in order is an ordered set. -/
theorem Orderly.orderedSet (h : Orderly p log) : OrderedSet p log where
  orderly := h
  add_iff f := h.policy ▸ add_snd_iff
  add_new f hnew := by
    have hentries := entries_add_of_new hnew
    have hpolicy := policy_add log f
    rw [← hentries, ← hpolicy]
  add_old f := add_of_old
  retain keep := ⟨List.filter_sublist, fun _ => List.mem_filter⟩
  sort := sort_sorts log
  drain := congrArg (log.entries, ·) h.clear_eq
  clear := h.clear_eq
  again := by
    refine ⟨addAll_of_new h.nodup fun f hf => h.policy ▸ h.shown f hf, fun f => ?_⟩
    rw [add_snd_iff, h.clear_eq]
    exact and_iff_left List.not_mem_nil
  views := h.views

/-- A log that starts empty is an ordered set under its policy after any operations. -/
theorem orderedSet_run (p : SeverityPolicy) (operations : List Operation) :
    OrderedSet p ((FindingLog.empty p).run operations) :=
  ((Orderly.empty p).run operations).orderedSet

end FindingLog
end StatementForest
