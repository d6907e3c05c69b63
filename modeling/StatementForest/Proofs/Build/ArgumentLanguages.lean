import StatementForest.Proofs.Build.PopulateSuccess
import StatementForest.Proofs.Text.Shapes
import StatementForest.Proofs.Build.UniformRelations

/-!
# Which arguments are accepted

Every rule for arguments has a language, which is stated here by the shapes of texts and
without the checks.  The check of a core statement finds no fault in the arguments of
this language and one fault in every other one.

All rules but two look at the argument without its blank ends, and take a blank argument
for none.  The two that ask for the presence or the absence of an argument look at
nothing else.

Main results:

- Theorem `ArgumentRule.fault?_eq_none_iff`: a rule has no fault to find in its language,
  and in nothing else.
- Theorems `ArgumentRule.accepts_congr`, `ArgumentRule.accepts_congr_of_presence`: what a
  rule looks at.
- Theorem `BuildM.checkCoreArgument_finds`: what the check of a core statement records.

Current gaps:

- Dates are checked for their shape only.  Months with fewer days are not told apart, as the
  checks do not either.
-/

namespace StatementForest
namespace ArgumentRule

variable {rule : ArgumentRule} {argument : String} {value : Option String}

/-! ## Languages -/

/-- There is something in a value, and without its blank ends it has a property. -/
def Holds (value : Option String) (P : String → Prop) : Prop :=
  ∃ s t, value = some s ∧ Text.Trims s t ∧ t ≠ "" ∧ P t

/-- The values in the language of a rule. -/
def Accepts (value : Option String) : ArgumentRule → Prop
  | .required | .documentation => Holds value fun _ => True
  | .present => value ≠ none
  | .absent => value = none
  | .boolean => Holds value fun t => t = "true" ∨ t = "false"
  | .identifier => Holds value fun t => Text.Identifier t.toList
  | .reference => Holds value fun t => Text.Reference t.toList
  | .oneOf words => Holds value fun t => t ∈ words
  | .status => Holds value fun t => t = "current" ∨ t = "deprecated" ∨ t = "obsolete"
  | .date => Holds value fun t => Text.Date t.toList
  | .integer least greatest =>
    Holds value fun t => ∃ i, Text.Signed t.toList i ∧ least ≤ i ∧ i ≤ greatest
  | .maxElements =>
    Holds value fun t => t = "unbounded" ∨
      ∃ n, Text.Unsigned t.toList n ∧ 1 ≤ n ∧ n ≤ 2 ^ 64 - 1
  | .ifFeature =>
    ∃ s e, value = some s ∧ ¬ Text.Blank s.toList ∧ Condition.parse s = .ok e

/-- The bounds of a rule for integers fit into 64 bits. -/
def Bounded : ArgumentRule → Prop
  | .integer least greatest => -2 ^ 63 ≤ least ∧ greatest < 2 ^ 63
  | _ => True

/-- The bounds of the core language fit into 64 bits. -/
theorem bounded_argumentRule (k : Keyword) : k.argumentRule.Bounded := by
  cases k <;> simp [Keyword.argumentRule, Bounded]

/-- The argument that a rule looks at, without blank ends. -/
def trimmed (value : Option String) : String := (value.map Text.trim).getD ""

/-- A property holds of what is left of a value when its blank ends are gone. -/
theorem holds_iff {P : String → Prop} :
    Holds value P ↔ trimmed value ≠ "" ∧ P (trimmed value) := by
  constructor
  · rintro ⟨s, t, rfl, htrims, hne, hP⟩
    cases Text.trims_iff.mp htrims
    exact ⟨hne, hP⟩
  · rintro ⟨hne, hP⟩
    cases value with
    | none => exact absurd rfl hne
    | some s => exact ⟨s, Text.trim s, rfl, Text.trims_iff.mpr rfl, hne, hP⟩

/-! ## Contents -/

/-- A number is within bounds of 64 bits when it is written with at most one sign. -/
theorem isWithin_iff {least greatest : Int} (hleast : -2 ^ 63 ≤ least)
    (hgreatest : greatest < 2 ^ 63) :
    isWithin least greatest argument = true ↔
      ∃ i, Text.Signed argument.toList i ∧ least ≤ i ∧ i ≤ greatest := by
  simp only [isWithin, Text.readSigned64, Option.any_eq_true, Option.filter_eq_some_iff,
    ← Text.signed_iff, Bool.and_eq_true, decide_eq_true_eq]
  constructor
  · rintro ⟨i, ⟨hi, -⟩, hbounds⟩
    exact ⟨i, hi, hbounds⟩
  · rintro ⟨i, hi, hbounds⟩
    refine ⟨i, ⟨hi, ?_⟩, hbounds⟩
    -- whatever is within the bounds fits into 64 bits
    have hfits : -2 ^ 63 ≤ i ∧ i < 2 ^ 63 :=
      ⟨hleast.trans hbounds.1, lt_of_le_of_lt hbounds.2 hgreatest⟩
    exact Bool.and_eq_true_iff.mpr ⟨decide_eq_true hfits.1, decide_eq_true hfits.2⟩

/-- The largest number of elements is a positive count of 64 bits, or unbounded. -/
theorem isMaxElements_iff :
    isMaxElements argument = true ↔
      argument = "unbounded" ∨ ∃ n, Text.Unsigned argument.toList n ∧ 1 ≤ n ∧ n ≤ 2 ^ 64 - 1 := by
  simp only [isMaxElements, Text.readUnsigned64, Bool.or_eq_true, beq_iff_eq,
    Option.any_eq_true, Option.filter_eq_some_iff, ← Text.unsigned_iff, decide_eq_true_eq]
  refine or_congr_right (exists_congr fun n => ?_)
  have hlt : n < Nat.pow 2 64 ↔ n ≤ 2 ^ 64 - 1 := Nat.lt_iff_le_pred (by decide)
  rw [hlt]
  exact ⟨fun h => ⟨h.1.1, h.2, h.1.2⟩, fun h => ⟨⟨h.1, h.2.2⟩, h.2.1⟩⟩

/-- The three words for a status are recognised. -/
theorem isSome_ofText?_iff {s : String} :
    (Status.ofText? s).isSome = true ↔ s = "current" ∨ s = "deprecated" ∨ s = "obsolete" := by
  unfold Status.ofText?
  split <;> simp_all

/-- An argument that is empty is blamed, and no other. -/
theorem blankFault?_eq_none_iff (name : String) :
    blankFault? name argument = none ↔ argument ≠ "" := by
  rw [blankFault?, ite_eq_right_iff]
  simp [String.isEmpty_iff]

/-- A rule that looks at the argument without blank ends finds a blank argument, or
something wrong in it. -/
theorem or_eq_none_iff (rule : ArgumentRule) {name : String} {P : String → Prop}
    (h : rule.contentFault? name (trimmed value) = none ↔ P (trimmed value)) :
    (blankFault? name (trimmed value)).or (rule.contentFault? name (trimmed value)) = none ↔
      Holds value P := by
  rw [Option.or_eq_none_iff, blankFault?_eq_none_iff, holds_iff, h]

/-- Documentation is blamed when nothing is left of it. -/
theorem fault?_documentation_eq_none_iff (name : String) :
    fault? .documentation name value = none ↔ trimmed value ≠ "" := by
  cases value with
  | none => simp [fault?, trimmed]
  | some s => simp [fault?, trimmed, String.isEmpty_iff]

/-- A condition is accepted when it can be read. -/
theorem ifFeature_iff (name : String) :
    contentFault? .ifFeature name (trimmed value) = none ∧ trimmed value ≠ "" ↔
      Accepts value .ifFeature := by
  have hparse : contentFault? .ifFeature name (trimmed value) = none ↔
      ∃ e, Condition.parse (trimmed value) = .ok e := by
    simp only [contentFault?]
    cases Condition.parse (trimmed value) <;> simp
  rw [hparse]
  constructor
  · rintro ⟨⟨e, he⟩, hne⟩
    cases value with
    | none => exact absurd rfl hne
    | some s =>
      have hs : Condition.parse (Text.trim s) = .ok e := he
      rw [Condition.parse_trim] at hs
      exact ⟨s, e, rfl, fun hblank => hne (Text.trim_eq_empty_iff.mpr hblank), hs⟩
  · rintro ⟨s, e, rfl, hblank, he⟩
    rw [← Condition.parse_trim] at he
    exact ⟨⟨e, he⟩, fun hempty => hblank (Text.trim_eq_empty_iff.mp hempty)⟩

/-- A rule has no fault to find in its language, and in nothing else. -/
theorem fault?_eq_none_iff (h : rule.Bounded) (name : String) (value : Option String) :
    rule.fault? name value = none ↔ rule.Accepts value := by
  cases rule with
  | required =>
    exact or_eq_none_iff .required (P := fun _ => True) (by simp [contentFault?])
  | present => cases value <;> simp [fault?, Accepts]
  | absent => cases value <;> simp [fault?, Accepts]
  | boolean =>
    exact or_eq_none_iff .boolean
      (by simp [contentFault?, or_iff_not_imp_left])
  | identifier =>
    exact or_eq_none_iff .identifier
      (by simp [contentFault?, identifierFault?, Text.isIdentifier_iff])
  | reference =>
    exact or_eq_none_iff .reference (by simp [contentFault?, Text.isReference_iff])
  | oneOf words => exact or_eq_none_iff (.oneOf words) (by simp [contentFault?])
  | status =>
    exact or_eq_none_iff .status
      (by simp [contentFault?, isSome_ofText?_iff, or_iff_not_imp_left])
  | date => exact or_eq_none_iff .date (by simp [contentFault?, Text.isDate_iff])
  | integer least greatest =>
    exact or_eq_none_iff (.integer least greatest)
      (by simp [contentFault?, isWithin_iff h.1 h.2])
  | maxElements =>
    exact or_eq_none_iff .maxElements
      (by simp [contentFault?, isMaxElements_iff, or_iff_not_imp_left])
  | documentation =>
    rw [fault?_documentation_eq_none_iff]
    exact (holds_iff.trans (and_iff_left trivial)).symm
  | ifFeature =>
    rw [← ifFeature_iff name, and_comm, ← blankFault?_eq_none_iff name]
    exact Option.or_eq_none_iff

/-! ## What a rule looks at -/

/-- Whether a rule looks at the presence of an argument only. -/
def looksAtPresence : ArgumentRule → Bool
  | .present | .absent => true
  | _ => false

/-- Blank ends do not matter to the other rules, and neither does an absent argument in
place of a blank one. -/
theorem accepts_congr {v w : Option String} (hrule : rule.looksAtPresence = false)
    (h : trimmed v = trimmed w) : rule.Accepts v ↔ rule.Accepts w := by
  have holds {P : String → Prop} : Holds v P ↔ Holds w P := by rw [holds_iff, holds_iff, h]
  cases rule with
  | present | absent => cases hrule
  | ifFeature =>
    rw [← ifFeature_iff "", ← ifFeature_iff "", h]
  | _ => exact holds

/-- The contents of an argument do not matter to a rule that looks at its presence. -/
theorem accepts_congr_of_presence {v w : Option String} (hrule : rule.looksAtPresence = true)
    (h : v.isSome = w.isSome) : rule.Accepts v ↔ rule.Accepts w := by
  cases rule with
  | present | absent => cases v <;> cases w <;> simp_all [Accepts]
  | _ => cases hrule

end ArgumentRule

/-! ## Checks -/

namespace BuildM

variable {env : Environment} {state : BuildState} {id : NodeId} {n : Node}

/-- The findings for what is wrong with a statement: one, or none. -/
def faultFindings (n : Node) (id : NodeId) (fault? : Option Fault) : List Finding :=
  fault?.toList.map fun fault => { subject := n.subject id, kind := fault.1, message := fault.2 }

/-- The state after some reports that are not suppressed. -/
def recorded (state : BuildState) (findings : List Finding) : BuildState where
  store := findings.foldl Store.attachFinding state.store
  log := state.log.addAll findings

/-- What is wrong with a statement is recorded, unless a report is suppressed or the
last one. -/
theorem blame_apply (hstop : env.stopAt = none)
    (hshown : ∀ kind, state.log.policy.suppresses kind = false)
    (hn : state.store.get? id = some n) (fault? : Option Fault) :
    blame env id fault? state = (.ok (), recorded state (faultFindings n id fault?)) := by
  cases fault? with
  | none => rfl
  | some fault =>
    let f : Finding := { subject := n.subject id, kind := fault.1, message := fault.2 }
    obtain ⟨severity, hsev⟩ : ∃ severity, state.log.severityOf f = some severity := by
      have h := hshown f.kind
      rw [SeverityPolicy.suppresses, Option.isNone_eq_false_iff] at h
      exact Option.isSome_iff_exists.mp h
    rw [blame_some, reportOn, bind_apply, Reading.node_apply hn]
    dsimp only
    rw [report_apply_of_some hsev, hstop]
    rfl

/-- The statement has the findings for what is wrong with it, and all else that it had. -/
theorem get?_recorded (hn : state.store.get? id = some n) (fault? : Option Fault) :
    (recorded state (faultFindings n id fault?)).store.get? id =
      some { n with
        findings := (faultFindings n id fault?).foldl insertFinding n.findings } := by
  cases fault? with
  | none => exact hn
  | some fault =>
    have h := Store.get?_update_self state.store id fun m => { m with
      findings := insertFinding m.findings
        { subject := n.subject id, kind := fault.1, message := fault.2 } }
    rw [hn] at h
    exact h

/-- The check of the argument of a core statement, when nothing is suppressed and nothing
stops it, records at most one finding with the statement and in the log, and none if and
only if the argument is in the language of the rule. -/
theorem checkCoreArgument_finds (k : Keyword) (hstop : env.stopAt = none)
    (hshown : ∀ kind, state.log.policy.suppresses kind = false)
    (hn : state.store.get? id = some n) :
    ∃ found : List Finding,
      checkCoreArgument env id k state = (.ok (), recorded state found) ∧
      (recorded state found).store.get? id =
        some { n with findings := found.foldl insertFinding n.findings } ∧
      found.length ≤ 1 ∧ (∀ f ∈ found, f.subject = n.subject id) ∧
      (found = [] ↔ k.argumentRule.Accepts n.element.value) ∧
      (k.argumentRule.looksAtPresence = false → ∀ v,
        ArgumentRule.trimmed v = ArgumentRule.trimmed n.element.value →
          (found = [] ↔ k.argumentRule.Accepts v)) ∧
      (k.argumentRule.looksAtPresence = true → ∀ v, v.isSome = n.element.value.isSome →
        (found = [] ↔ k.argumentRule.Accepts v)) := by
  let fault? := k.argumentRule.fault? n.name n.element.value
  have hnone : faultFindings n id fault? = [] ↔ k.argumentRule.Accepts n.element.value := by
    rw [← ArgumentRule.fault?_eq_none_iff (ArgumentRule.bounded_argumentRule k) n.name,
      faultFindings, List.map_eq_nil_iff, Option.toList_eq_nil_iff]
  refine ⟨faultFindings n id fault?, ?_, get?_recorded hn fault?, ?_, ?_, hnone, ?_, ?_⟩
  · rw [checkCoreArgument, bind_apply, Reading.node_apply hn]
    exact blame_apply hstop hshown hn fault?
  · rw [faultFindings, List.length_map]
    cases fault? <;> simp
  · intro f hf
    obtain ⟨fault, -, rfl⟩ := List.mem_map.mp hf
    rfl
  · intro hrule v hv
    exact hnone.trans (ArgumentRule.accepts_congr hrule hv.symm)
  · intro hrule v hv
    exact hnone.trans (ArgumentRule.accepts_congr_of_presence hrule hv.symm)

/-- A statement with a padded and signed number for its argument. -/
def paddedValue : Node where
  key := Key.ofKeyword .value
  variant := .core .value
  element := {
    name := "value", value := some " +007\t", line := none, source := none
    scope := { home := "m" }, children := [] }
  root := ⟨0⟩

/-- A padded and signed number is accepted, and nothing is reported about it. -/
theorem checkCoreArgument_finds_paddedValue :
    Keyword.value.argumentRule = .integer (-Int.pow 2 31) (Int.pow 2 31 - 1) ∧
    Keyword.value.argumentRule.Accepts (some " +007\t") ∧
    ∃ state : BuildState, state.store.get? ⟨0⟩ = some paddedValue ∧
      checkCoreArgument ⟨.empty, {}, none⟩ ⟨0⟩ .value state =
        (.ok (), recorded state []) := by
  have hdigits : Text.Numeral ['0', '0', '7'] 7 := Text.numeral_iff.mpr (by decide)
  have hseven : Text.Signed "+007".toList 7 := .plus hdigits
  have haccepts : Keyword.value.argumentRule.Accepts (some " +007\t") :=
    ⟨" +007\t", "+007", rfl, Text.trims_iff.mpr (by decide +kernel), by decide, 7, hseven,
      by decide, by decide⟩
  refine ⟨rfl, haccepts, { store := { slots := #[some paddedValue] } }, rfl, ?_⟩
  obtain ⟨found, hrun, -, -, -, hnone, -⟩ := @checkCoreArgument_finds ⟨.empty, {}, none⟩
    { store := { slots := #[some paddedValue] } } ⟨0⟩ paddedValue .value rfl (fun _ => rfl) rfl
  rw [hrun, hnone.mpr haccepts]

end BuildM
end StatementForest
