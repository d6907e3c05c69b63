import StatementForest.Proofs.Schema.GrammarConformance
import StatementForest.Proofs.Schema.SeverityIndependence

/-!
# Two views of the findings

A finding about a statement is recorded twice: in the log, and with the statement.  Each
document is built into a log and a store of its own, and both are renumbered when they are
merged.  Linking, features, pruning and identities add more findings, some of them about
statements that are gone.  Still a live statement keeps exactly the findings of the log that are
about it, in their order.

Main results:

- Theorem `BuildState.mirrorsLog_reported`: recording a finding keeps both views together.
- Theorem `Uniform.of_invariant`: what operations of the store and reports keep, a build keeps.
- Theorem `FindingsMirrored.absorb`: merging renumbers both views in the same way.
- Theorem `Schema.findings_eq_forStatement`: both views agree in every schema that is built.
-/

namespace StatementForest

open Store

/-- A finding with a severity is shown. -/
theorem SeverityPolicy.shows_of_severityOf {p : SeverityPolicy} {f : Finding} {severity : Severity}
    (h : p.severityOf f.kind = some severity) : p.shows f = true := by
  rw [shows, suppresses, h]
  rfl

/-! ## Findings about one statement -/

namespace FindingLog

variable {log : FindingLog} {f : Finding}

/-- A finding that is added is about a statement when it says so. -/
theorem forStatement_add_of_shows (h : log.policy.shows f = true) (x : NodeId) :
    (log.add f).1.forStatement x =
      if f.node? = some x then insertFinding (log.forStatement x) f else log.forStatement x := by
  rw [add_of_shows h, forStatement, forStatement, filter_insertFinding]
  simp only [decide_eq_true_eq]

/-- Of several findings those about a statement are added to what the log has about it. -/
theorem forStatement_addAll (x : NodeId) {findings : List Finding}
    (h : ∀ f ∈ findings, log.policy.shows f = true) :
    (log.addAll findings).forStatement x =
      (findings.filter (·.node? = some x)).foldl insertFinding (log.forStatement x) := by
  induction findings generalizing log with
  | nil => rfl
  | cons f rest ih =>
    have hrest : ∀ g ∈ rest, (log.add f).1.policy.shows g = true := fun g hg => by
      rw [policy_add]
      exact h g (List.mem_cons_of_mem _ hg)
    have hstep := ih hrest
    rw [forStatement_add_of_shows (h f List.mem_cons_self)] at hstep
    rw [List.filter_cons]
    by_cases hf : f.node? = some x
    · rw [if_pos hf] at hstep
      rw [if_pos (decide_eq_true hf)]
      exact hstep
    · rw [if_neg hf] at hstep
      rw [if_neg (mt of_decide_eq_true hf)]
      exact hstep

end FindingLog

namespace BuildState

/-- A statement keeps the findings of the log that are about it, in their order, or is gone. -/
def MirrorsLog (state : BuildState) (x : NodeId) : Prop :=
  ∀ n, state.store.get? x = some n → n.findings = state.log.forStatement x

variable {state : BuildState} {x : NodeId}

/-- Recording a finding keeps both views together, whatever the finding is about. -/
theorem mirrorsLog_reported {f : Finding} {severity : Severity}
    (hf : state.log.severityOf f = some severity) (h : state.MirrorsLog x) :
    (BuildM.reported state f).MirrorsLog x := by
  have hshows : state.log.policy.shows f = true := SeverityPolicy.shows_of_severityOf hf
  intro n hn
  rw [BuildM.reported, attachFinding] at hn
  rw [BuildM.reported, FindingLog.forStatement_add_of_shows hshows]
  rcases hnode : f.node? with _ | y
  · rw [hnode] at hn
    rw [if_neg (by rintro ⟨⟩)]
    exact h n hn
  rw [hnode] at hn
  dsimp only at hn
  by_cases hx : x = y
  · subst hx
    rw [get?_update_self, Option.map_eq_some_iff] at hn
    obtain ⟨m, hm, rfl⟩ := hn
    rw [if_pos rfl, ← h m hm]
  · rw [get?_update_of_ne _ _ hx] at hn
    rw [if_neg fun heq => hx (Option.some.inj heq).symm]
    exact h n hn

/-- An operation that keeps findings keeps both views together for a statement that was there. -/
theorem MirrorsLog.of_keepsFindings {t : Store} (h : state.MirrorsLog x)
    (hkeeps : state.store.KeepsFindings t)
    (hx : x.index < state.store.slots.size) : MirrorsLog { state with store := t } x := by
  intro n hn
  obtain ⟨m, hm, hsame⟩ | ⟨hnew, -⟩ := hkeeps.findings x n hn
  · rw [hsame]
    exact h m hm
  · omega

end BuildState

/-! ## Invariants of a build -/

/-- A step keeps an invariant, also when it fails. -/
def BuildM.Preserves (I : BuildState → Prop) {α : Type} (m : BuildM α) : Prop :=
  ∀ state, I state → I (m state).2

section Invariant

variable {I : BuildState → Prop} {env : Environment} {α β : Type}

/-- Steps that keep an invariant keep it one after the other. -/
theorem BuildM.Preserves.bind {m : BuildM α} {f : α → BuildM β} (hm : m.Preserves I)
    (hf : ∀ a, m.CanReturn a → (f a).Preserves I) : (m >>= f).Preserves I := by
  intro state h
  have hstep := hm state h
  rw [bind_apply]
  rcases hrun : m state with ⟨e | a, t⟩ <;> rw [hrun] at hstep
  · exact hstep
  · exact hf a ⟨state, t, hrun⟩ t hstep

/-- A report keeps an invariant that holds of the state with the finding. -/
theorem BuildM.report_preserves {f : Finding} {state : BuildState} (h : I state)
    (hreported : ∀ severity, state.log.severityOf f = some severity → I (reported state f)) :
    I (report env f state).2 := by
  rcases hsev : state.log.severityOf f with _ | severity
  · rw [report_apply_of_none hsev]
    exact h
  · rw [report_apply_of_some hsev]
    exact hreported severity hsev

/-- What is kept by operations of the store that keep findings, and by reports about live
statements or about none, is kept by steps of all kinds. -/
theorem Uniform.of_invariant (a b : Option Severity)
    (hstore : ∀ (state : BuildState) (t : Store), state.store.KeepsFindings t → I state →
      I { state with store := t })
    (hreport : ∀ (state : BuildState) (f : Finding) (severity : Severity),
      state.log.severityOf f = some severity →
      (∀ x, f.node? = some x → state.store.contains x = true) → I state →
        I (BuildM.reported state f)) :
    Uniform env a b fun m _ => m.Preserves I where
  pure _ _ h := h
  bind_of hm hf := hm.bind hf
  look {_ id _ _} _ h := by
    intro state hI
    rcases hn : state.store.get? id with _ | n
    · rw [bind_apply, BuildM.node, onStore_apply, StoreM.node_apply_of_none hn]
      exact hI
    · rw [bind_apply, Reading.node_apply hn]
      exact h n state hI
  store _ h state := h state.store state
  onStore _ hkeeping := by
    intro state hI
    rw [onStore_apply]
    exact hstore state _ (hkeeping state.store) hI
  reportOn id kind message := by
    intro state hI
    rcases hn : state.store.get? id with _ | n
    · rw [BuildM.reportOn, bind_apply, BuildM.node, onStore_apply, StoreM.node_apply_of_none hn]
      exact hI
    rw [BuildM.reportOn, bind_apply, Reading.node_apply hn]
    refine BuildM.report_preserves hI fun severity hsev => hreport state _ severity hsev ?_ hI
    rintro x ⟨⟩
    exact contains_iff.mpr ⟨n, hn⟩
  reportApart f hf := by
    intro state hI
    refine BuildM.report_preserves hI fun severity hsev => hreport state f severity hsev ?_ hI
    intro x hx
    rw [hf] at hx
    cases hx

end Invariant

/-! ## Documents -/

/-- The findings of a state are about statements that were made, are shown by its policy, and
stand in the same order with these statements. -/
structure FindingsMirrored (p : SeverityPolicy) (state : BuildState) : Prop where
  policy : state.log.policy = p
  shown : ∀ f ∈ state.log.entries, p.shows f = true
  placed : ∀ f ∈ state.log.entries, ∀ x, f.node? = some x → x.index < state.store.slots.size
  mirrorsLog : ∀ x, state.MirrorsLog x

namespace FindingsMirrored

variable {p : SeverityPolicy} {a b state : BuildState}

/-- In an empty state all findings are mirrored. -/
theorem empty (p : SeverityPolicy) : FindingsMirrored p { log := FindingLog.empty p } where
  policy := rfl
  shown _ hf := by cases hf
  placed _ hf := by cases hf
  mirrorsLog _ _ hn := by cases hn

/-- Nothing has been recorded about a statement that has yet to be made. -/
theorem forStatement_eq_nil (h : FindingsMirrored p state) {x : NodeId}
    (hx : state.store.slots.size ≤ x.index) : state.log.forStatement x = [] := by
  refine List.filter_eq_nil_iff.mpr fun f hf hnode => ?_
  have hlt := h.placed f hf x (of_decide_eq_true hnode)
  omega

/-- Findings stay mirrored when an operation keeps those of all statements. -/
theorem of_keepsFindings {t : Store} (h : FindingsMirrored p state)
    (hkeeps : state.store.KeepsFindings t) :
    FindingsMirrored p { state with store := t } where
  policy := h.policy
  shown := h.shown
  placed f hf x hx := Nat.lt_of_lt_of_le (h.placed f hf x hx) hkeeps.size_le
  mirrorsLog x := by
    by_cases hx : x.index < state.store.slots.size
    · exact (h.mirrorsLog x).of_keepsFindings hkeeps hx
    · intro n hn
      obtain ⟨m, hm, -⟩ | ⟨hnew, hnone⟩ := hkeeps.findings x n hn
      · exact absurd (lt_size_of_contains (contains_iff.mpr ⟨m, hm⟩)) hx
      · rw [hnone]
        exact (h.forStatement_eq_nil hnew).symm

/-- Findings stay mirrored when one more is recorded. -/
theorem reported {f : Finding} {severity : Severity} (h : FindingsMirrored p state)
    (hsev : state.log.severityOf f = some severity)
    (hlive : ∀ x, f.node? = some x → state.store.contains x = true) :
    FindingsMirrored p (BuildM.reported state f) := by
  have hshows : state.log.policy.shows f = true := SeverityPolicy.shows_of_severityOf hsev
  have hmem : ∀ g ∈ (state.log.add f).1.entries, g ∈ state.log.entries ∨ g = f :=
    fun _ hg => state.log.mem_add hg
  have hsize : (state.store.attachFinding f).slots.size = state.store.slots.size :=
    (OnlyReports.parallel_attachFinding state.store f).size
  refine ⟨(FindingLog.policy_add _ _).trans h.policy, fun g hg => ?_, fun g hg x hx => ?_,
    fun x => BuildState.mirrorsLog_reported hsev (h.mirrorsLog x)⟩
  · obtain hg | rfl := hmem g hg
    · exact h.shown g hg
    · exact h.policy ▸ hshows
  · refine hsize.symm ▸ ?_
    obtain hg | rfl := hmem g hg
    · exact h.placed g hg x hx
    · exact lt_size_of_contains (hlive x hx)

/-- What was recorded about a statement is recorded about it under its new number. -/
theorem filter_shift (findings : List Finding) (y : NodeId) (offset : Nat) :
    (findings.map (Finding.shift offset)).filter (·.node? = some (y.shift offset)) =
      (findings.filter (·.node? = some y)).map (Finding.shift offset) := by
  rw [List.filter_map]
  refine congrArg _ (List.filter_congr fun f _ => ?_)
  rw [Function.comp_apply, Finding.node?_shift]
  rcases f.node? with _ | z
  · rfl
  · simp only [Option.map_some, Option.some.injEq, NodeId.shift_inj]

/-- Nothing that is taken in is about a statement that was there. -/
theorem filter_shift_of_lt (findings : List Finding) {x : NodeId} {offset : Nat}
    (hx : x.index < offset) :
    (findings.map (Finding.shift offset)).filter (·.node? = some x) = [] := by
  refine List.filter_eq_nil_iff.mpr fun f hf hnode => ?_
  obtain ⟨g, -, rfl⟩ := List.mem_map.mp hf
  rw [Finding.node?_shift, decide_eq_true_eq, Option.map_eq_some_iff] at hnode
  obtain ⟨y, -, rfl⟩ := hnode
  exact NodeId.not_shift_lt hx

/-- Merging renumbers the findings of the log and those with the statements in the same way. -/
theorem absorb (h : FindingsMirrored p a) (h' : FindingsMirrored p b) :
    FindingsMirrored p (a.absorb b) where
  policy := (FindingLog.policy_addAll _ _).trans h.policy
  shown f hf := by
    obtain hf | ⟨-, hshown⟩ := BuildState.mem_absorb.mp hf
    · exact h.shown f hf
    · rw [h.policy] at hshown
      rw [SeverityPolicy.shows, hshown]
      rfl
  placed f hf x hx := by
    have hsize : (a.absorb b).store.slots.size = a.store.slots.size + b.store.slots.size := by
      simp [BuildState.absorb, Store.absorb]
    rw [hsize]
    obtain hf | ⟨⟨g, hg, rfl⟩, -⟩ := BuildState.mem_absorb.mp hf
    · have hlt := h.placed f hf x hx
      omega
    · rw [Finding.node?_shift, Option.map_eq_some_iff] at hx
      obtain ⟨y, hy, rfl⟩ := hx
      have hlt := h'.placed g hg y hy
      rw [NodeId.shift]
      dsimp only
      omega
  mirrorsLog x n hn := by
    have hshown : ∀ f ∈ b.log.entries.map (Finding.shift a.store.slots.size),
        a.log.policy.shows f = true := by
      intro f hf
      obtain ⟨g, hg, rfl⟩ := List.mem_map.mp hf
      rw [h.policy]
      exact h'.shown g hg
    rw [BuildState.absorb, FindingLog.forStatement_addAll x hshown]
    obtain ⟨hx, hn⟩ | ⟨y, m, rfl, hm, rfl⟩ := get?_absorb_cases hn
    · rw [filter_shift_of_lt _ hx]
      exact h.mirrorsLog x n hn
    · have hnone : a.log.forStatement (y.shift a.store.slots.size) = [] :=
        h.forStatement_eq_nil (Nat.le_add_left _ _)
      have hfindings : b.log.entries.filter (·.node? = some y) = m.findings :=
        (h'.mirrorsLog y m hm).symm
      rw [hnone, filter_shift, hfindings]
      rfl

end FindingsMirrored

/-- Building a document records every finding twice. -/
theorem SchemaDocument.built_findingsMirrored (env : Environment) (p : SeverityPolicy)
    (d : SchemaDocument) : FindingsMirrored p (d.built env p) := by
  have hkept : (d.populate (env.stopping env.stopAt)).Preserves (FindingsMirrored p) :=
    (Uniform.of_invariant env.stopAt env.stopAt (fun _ _ hkeeps h => h.of_keepsFindings hkeeps)
      fun _ _ _ hsev hlive h => h.reported hsev hlive).populateDocument d
  exact hkept _ (.empty p)

/-! ## Schemas -/

namespace Schema

variable {c : Configuration} {grammar : Grammar} {suppliers : Suppliers}
  {documents : List SchemaDocument} {schema : Schema} {a : BuildState}

/-- Building more documents keeps findings mirrored. -/
theorem gather_findingsMirrored (env : Environment) {p : SeverityPolicy} (h : FindingsMirrored p a)
    (later : List SchemaDocument) : FindingsMirrored p (gather env p a later) := by
  induction later generalizing a with
  | nil => exact h
  | cons d rest ih => exact ih (h.absorb (d.built_findingsMirrored env p))

/-- What follows merging makes no statement, and keeps both views together for all statements
that have been made. -/
theorem resolve_mirrorsLog (env : Environment) (c : Configuration) {p : SeverityPolicy}
    (h : FindingsMirrored p a) {x : NodeId} (hx : x.index < a.store.slots.size) :
    (BuildM.resolve env c a).2.MirrorsLog x := by
  let I : BuildState → Prop := fun state => x.index < state.store.slots.size ∧ state.MirrorsLog x
  have hreport : ∀ (state : BuildState) (f : Finding) (severity : Severity),
      state.log.severityOf f = some severity → I state → I (BuildM.reported state f) :=
    fun state f _ hsev hI =>
      ⟨(OnlyReports.parallel_attachFinding state.store f).size.symm ▸ hI.1,
        BuildState.mirrorsLog_reported hsev hI.2⟩
  have huniform : Uniform env env.stopAt env.stopAt fun m _ => m.Preserves I :=
    Uniform.of_invariant _ _ (fun _ _ hkeeps hI =>
      ⟨Nat.lt_of_lt_of_le hI.1 hkeeps.size_le, hI.2.of_keepsFindings hkeeps hI.1⟩)
      fun state f severity hsev _ hI => hreport state f severity hsev hI
  have hkept : (BuildM.resolve (env.stopping env.stopAt) c).Preserves I :=
    huniform.resolve (fun f state hI => BuildM.report_preserves hI fun severity hsev =>
      hreport state f severity hsev hI) c
  exact (hkept a ⟨hx, h.mirrorsLog x⟩).2

/-- A live statement of a schema keeps exactly the findings of the log that are about it, in
their order. -/
theorem findings_eq_forStatement (hbuild : build c grammar suppliers documents = .ok schema)
    {x : NodeId} {n : Node} (hn : schema.store.get? x = some n) :
    n.findings = schema.log.forStatement x := by
  obtain ⟨merged, hmerged, hresolve, -, -, ⟨stages⟩⟩ := exists_stages hbuild
  have hmirrored : FindingsMirrored c.policy merged := by
    rw [hmerged]
    exact gather_findingsMirrored _ (.empty _) documents
  have hlive := stages.contains_merged (contains_iff.mpr ⟨n, hn⟩)
  have hmirrors := resolve_mirrorsLog { grammar, suppliers } c hmirrored (lt_size_of_contains hlive)
  rcases hrun : BuildM.resolve { grammar, suppliers } c merged with ⟨e | result, t⟩ <;>
    rw [hrun] at hresolve hmirrors <;> cases hresolve
  exact hmirrors n hn

/-- A module without a name. -/
def namelessDocument : SchemaDocument where
  element := plainElement "module" ""
  source := none
  conformance := .implement

/-- What is missing from the second of two documents is kept with its statement, under the number
that merging has given to it. -/
theorem findings_eq_forStatement_namelessDocuments : ∃ schema x n,
    build Configuration.template Grammar.standard {} [namelessDocument, namelessDocument] =
      .ok schema ∧ schema.store.topOf ⟨1⟩ = some x ∧ schema.store.get? x = some n ∧
      n.findings ≠ [] ∧ n.findings = schema.log.forStatement x := by
  have hvalid : Configuration.template.validate = .ok () := by rfl
  obtain ⟨_, _, hnever⟩ | ⟨schema, hbuild, -⟩ := treesOf_of_valid hvalid Grammar.standard {}
    [namelessDocument, namelessDocument]
  · cases hnever
  obtain ⟨x, n, htop, hn, helement⟩ := exists_top_of_build Grammar.proper_standard hbuild
    (i := 1) (d := namelessDocument) rfl rfl
  have hsame := findings_eq_forStatement hbuild hn
  refine ⟨schema, x, n, hbuild, htop, hn, fun hnone => ?_, hsame⟩
  obtain ⟨merged, hsound, hobeys, ⟨stages⟩⟩ := exists_obeysGrammar Grammar.proper_standard hbuild
  obtain ⟨m, hm, hface⟩ := (stages.alike rfl).exists_get?_left hn
  rw [Node.element_of_face hface] at helement
  have hcore := Node.isKeyword_iff.mp
    ((hsound.faithful.isKeyword_iff hm .module).mpr (helement ▸ rfl))
  -- the standard grammar demands children of a module
  obtain ⟨message, hmessage⟩ := List.exists_mem_of_ne_nil _
    (show missingMessages (Grammar.standard.below .module) namelessDocument.element ≠ [] by decide)
  have hrecords := hobeys.missing x m .module hm hcore message (helement ▸ hmessage)
  have hshown : merged.log.policy.suppresses .missingRequiredChild = false := by
    rw [hobeys.policy, Configuration.suppresses_policy]
    rfl
  have hlog := stages.mem_log_of_merged (hrecords hshown)
  rw [hsame] at hnone
  exact List.filter_eq_nil_iff.mp hnone _ hlog (decide_eq_true rfl)

end Schema
end StatementForest
