import Mathlib.Data.List.Induction
import StatementForest.Proofs.Build.StoppedRuns
import StatementForest.Proofs.Schema.BuildOutcome

/-!
# Failing fast is a cut of the full build

A build with a severity at which to stop ends as the full build does when no finding
of that is so serious.  Otherwise it fails with the first finding that is.  A finding
of a single document names the statement as it is numbered before merging.

Main results:

- Theorem `SchemaDocument.build_cut`: building one document is cut.
- Theorem `BuildState.first_absorb`: merging keeps the order of serious findings.
- Theorem `Schema.merge_cut`: so is building and merging several documents.
- Theorem `Schema.failFast_eq_first`: a whole build is cut.

Current gaps:

- Documents are built one after another.  When they are built at the same time another of several
  serious findings may come first.
-/

namespace StatementForest

variable {env : Environment} {policy : SeverityPolicy} {t : Severity}

/-! ## One document -/

namespace SchemaDocument

/-- Building one document is cut at the first serious finding. -/
theorem build_cut {d : SchemaDocument} {state : BuildState}
    (h : d.build env.steady policy = .ok state) (t : Severity) :
    state.log.policy = policy ∧
      match state.log.first t with
      | none => d.build (env.hasty t) policy = .ok state
      | some f => d.build (env.hasty t) policy = .error (.failFast f) := by
  have hcuts : StopsShort t (d.populate env.steady) (d.populate (env.hasty t)) :=
    StopsShort.uniform.populateDocument d
  rw [build_eq] at h ⊢
  rcases hrun : populate env.steady d { log := FindingLog.empty policy } with ⟨e | _, u⟩
  · rw [hrun] at h
    cases h
  rw [hrun] at h
  cases h
  have hgrows := hcuts.grows { log := FindingLog.empty policy }
  rw [hrun] at hgrows
  refine ⟨hgrows.policy, ?_⟩
  rcases hfirst : state.log.first t with _ | f
  · have heq := hcuts.eq { log := FindingLog.empty policy } (by rw [hrun]; exact hfirst)
    rw [heq, hrun]
  · obtain ⟨u, hu⟩ := hcuts.stops { log := FindingLog.empty policy } f rfl
      (by rw [hrun]; exact hfirst)
    rw [hu]

end SchemaDocument

/-! ## Merging -/

namespace BuildState

/-- The first serious finding comes from what was there, or else from what is merged. -/
theorem first_absorb {state other : BuildState} (h : other.log.policy = state.log.policy) :
    (state.absorb other).log.first t = (state.log.first t).or
      ((other.log.first t).map (Finding.shift state.store.slots.size)) := by
  rw [absorb, FindingLog.first_addAll, List.find?_map]
  congr 2
  rw [FindingLog.first, h]
  rfl

end BuildState

namespace Schema

variable {documents : List SchemaDocument}

/-- The number of statement slots before those of a document in the merged store. -/
def offset (env : Environment) (policy : SeverityPolicy) (documents : List SchemaDocument)
    (i : Nat) : Nat :=
  match merge env policy (documents.take i) with
  | .ok state => state.store.slots.size
  | .error _ => 0

/-- Later documents do not change the number of slots before an earlier one. -/
theorem offset_append {i : Nat} (h : i ≤ documents.length) (env : Environment)
    (policy : SeverityPolicy) (later : List SchemaDocument) :
    offset env policy (documents ++ later) i = offset env policy documents i := by
  rw [offset, offset, List.take_append_of_le_length h]

/-- All documents are merged without a serious finding, or the first serious one comes
from the document at some place. -/
theorem merge_cut {state : BuildState} (h : merge env.steady policy documents = .ok state)
    (t : Severity) :
    state.log.policy = policy ∧
      match state.log.first t with
      | none => merge (env.hasty t) policy documents = .ok state
      | some g => ∃ f i d, documents[i]? = some d ∧
          d.build (env.hasty t) policy = .error (.failFast f) ∧
          merge (env.hasty t) policy documents = .error (.failFast f) ∧
          g = f.shift (offset env.steady policy documents i) := by
  induction documents using List.reverseRecOn generalizing state with
  | nil =>
    cases h
    exact ⟨rfl, rfl⟩
  | append_singleton documents d ih =>
    rw [merge_append_singleton] at h
    rcases hmerge : merge env.steady policy documents with e | before
    · rw [hmerge] at h
      cases h
    rcases hbuild : d.build env.steady policy with e | other
    · rw [hmerge, hbuild] at h
      cases h
    rw [hmerge, hbuild] at h
    cases h
    obtain ⟨hpolicy, hbefore⟩ := ih hmerge
    obtain ⟨hother, hlast⟩ := SchemaDocument.build_cut hbuild t
    refine ⟨(FindingLog.policy_addAll _ _).trans hpolicy, ?_⟩
    rw [BuildState.first_absorb (hother.trans hpolicy.symm), merge_append_singleton]
    rcases hfirst : before.log.first t with _ | g
    · rw [hfirst] at hbefore
      rw [hbefore, Option.none_or]
      rcases hf : other.log.first t with _ | f
      · rw [hf] at hlast
        rw [hlast]
        rfl
      · rw [hf] at hlast
        refine ⟨f, documents.length, d, by simp, hlast, ?_, ?_⟩
        · rw [hlast]
          rfl
        · rw [offset_append (Nat.le_refl _), offset, List.take_length, hmerge]
    · rw [hfirst] at hbefore
      obtain ⟨f, i, d', hi, hd', hstop, hg⟩ := hbefore
      have hlt := (List.getElem?_eq_some_iff.mp hi).1
      refine ⟨f, i, d', ?_, hd', ?_, ?_⟩
      · rw [List.getElem?_append_left hlt, hi]
      · rw [hstop]
        rfl
      · rw [offset_append (Nat.le_of_lt hlt), hg]

/-! ## Whole builds -/

/-- The finding at which a build stops, and the same one in the full build.  Only one of
a single document is numbered differently there. -/
inductive Renumbered (env : Environment) (policy : SeverityPolicy)
    (documents : List SchemaDocument) (t : Severity) (f : Finding) : Finding → Prop where
  | merged {state : BuildState} (h : merge (env.hasty t) policy documents = .ok state) :
      Renumbered env policy documents t f f
  | ofDocument {i : Nat} {d : SchemaDocument} (hd : documents[i]? = some d)
      (h : d.build (env.hasty t) policy = .error (.failFast f)) :
      Renumbered env policy documents t f (f.shift (offset env.steady policy documents i))

/-- A finding that is numbered differently has the same kind, message and origin. -/
theorem Renumbered.same {documents : List SchemaDocument} {f g : Finding}
    (h : Renumbered env policy documents t f g) :
    g.kind = f.kind ∧ g.message = f.message ∧ g.subject.origin? = f.subject.origin? := by
  cases h with
  | merged _ => exact ⟨rfl, rfl, rfl⟩
  | ofDocument _ _ =>
    refine ⟨rfl, rfl, ?_⟩
    rw [Finding.shift]
    rcases f.subject with _ | _ | _ <;> rfl

/-- What follows merging keeps the findings, and is cut unless one of them is serious. -/
theorem resolve_cut {c : Configuration} {state : BuildState} {full : Schema}
    (h : ofResolved (BuildM.resolve env.steady c state) = .ok full) (t : Severity) :
    FindingLog.Grows state.log full.log ∧ (state.log.first t = none →
      match full.log.first t with
      | none => ofResolved (BuildM.resolve (env.hasty t) c state) = .ok full
      | some f =>
        ofResolved (BuildM.resolve (env.hasty t) c state) = .error (.failFast f)) := by
  have hcuts : StopsShort t (BuildM.resolve env.steady c) (BuildM.resolve (env.hasty t) c) :=
    StopsShort.uniform.resolve StopsShort.report c
  have hgrows := hcuts.grows state
  rcases hrun : BuildM.resolve env.steady c state with ⟨e | ⟨tables, features, identities⟩, u⟩
  · rw [hrun] at h
    cases h
  rw [hrun] at h hgrows
  cases h
  refine ⟨hgrows, fun hnone => ?_⟩
  dsimp only
  rcases hfirst : u.log.first t with _ | f
  · rw [hcuts.eq state (by rw [hrun]; exact hfirst), hrun]
    rfl
  · obtain ⟨v, hv⟩ := hcuts.stops state f hnone (by rw [hrun]; exact hfirst)
    rw [hv]
    rfl

/-- Building with a severity at which to stop ends as the full build, or with the first
of its findings that reaches the severity. -/
theorem cut_of_valid {c : Configuration} (h : c.validate = .ok ()) (hstop : c.stopAt = some t)
    (grammar : Grammar) (suppliers : Suppliers) {full : Schema}
    (hfull : build { c with failFast := none } grammar suppliers documents = .ok full) :
    match full.log.first t with
    | none => build c grammar suppliers documents = .ok full
    | some g => ∃ f, build c grammar suppliers documents = .error (.failFast f) ∧
        Renumbered { grammar, suppliers } c.policy documents t f g := by
  have hsteady : (merge (Environment.steady { grammar, suppliers }) c.policy documents).bind
      (fun state =>
        ofResolved (BuildM.resolve (Environment.steady { grammar, suppliers }) c state)) =
      .ok full := by
    rw [build_of_valid (c := { c with failFast := none }) h] at hfull
    exact hfull
  have hhasty : build c grammar suppliers documents =
      (merge (Environment.hasty { grammar, suppliers } t) c.policy documents).bind fun state =>
        ofResolved (BuildM.resolve (Environment.hasty { grammar, suppliers } t) c state) := by
    rw [build_of_valid h, hstop]
    rfl
  rw [hhasty]
  rcases hmerge : merge (Environment.steady { grammar, suppliers }) c.policy documents with
    e | state
  · rw [hmerge] at hsteady
    cases hsteady
  rw [hmerge] at hsteady
  obtain ⟨hgrows, hlast⟩ := resolve_cut hsteady t
  obtain ⟨_, hmerged⟩ := merge_cut hmerge t
  rcases hfirst : state.log.first t with _ | g
  · -- no document holds a serious finding, so both builds merge the same
    rw [hfirst] at hmerged
    rw [hmerged]
    have hlast := hlast hfirst
    rcases hg : full.log.first t with _ | g
    · rw [hg] at hlast
      exact hlast
    · rw [hg] at hlast
      exact ⟨g, hlast, .merged hmerged⟩
  · rw [hfirst] at hmerged
    obtain ⟨f, i, d, hd, hbuilt, hstopped, rfl⟩ := hmerged
    rw [hgrows.first_eq_some hfirst, hstopped]
    exact ⟨f, rfl, .ofDocument hd hbuilt⟩

/-- A build with a result had valid settings. -/
theorem validate_of_build {c : Configuration} {grammar : Grammar} {suppliers : Suppliers}
    {schema : Schema} (hbuild : build c grammar suppliers documents = .ok schema) :
    c.validate = .ok () := by
  obtain ⟨hvalid, -⟩ | ⟨fault, hinvalid, -⟩ := validate_outcome c
  · exact hvalid
  · rw [build_of_invalid hinvalid] at hbuild
    cases hbuild

/-- A build that might have stopped early ends with the schema of one that never does. -/
theorem build_steady {c : Configuration} {grammar : Grammar} {suppliers : Suppliers}
    {schema : Schema} (hbuild : build c grammar suppliers documents = .ok schema) :
    build { c with failFast := none } grammar suppliers documents = .ok schema := by
  have hvalid := validate_of_build hbuild
  cases hstop : c.stopAt with
  | none =>
    rw [build_of_valid hvalid, hstop] at hbuild
    rw [build_of_valid (c := { c with failFast := none }) hvalid]
    exact hbuild
  | some t =>
    obtain ⟨_, _, hnever⟩ | ⟨full, hfull, -⟩ :=
      treesOf_of_valid (c := { c with failFast := none }) hvalid grammar suppliers documents
    · cases hnever
    have hcut := cut_of_valid hvalid hstop grammar suppliers hfull
    rcases hfirst : full.log.first t with _ | g <;> rw [hfirst, hbuild] at hcut
    · cases hcut
      exact hfull
    · obtain ⟨f, hfail, -⟩ := hcut
      cases hfail

/-- With known codes the full build ends with a schema.  Failing fast gives the same
schema when none of its findings reaches the severity at which to stop, and otherwise
fails with the first one that does. -/
theorem failFast_eq_first {c : Configuration}
    (hcodes : ∀ code ∈ c.codes, (FindingKind.ofCode? code).isSome = true)
    (hstop : c.stopAt = some t) (grammar : Grammar) (suppliers : Suppliers)
    (documents : List SchemaDocument) :
    ∃ full, build { c with failFast := none } grammar suppliers documents = .ok full ∧
      match (full.log.atLeast t).head? with
      | none => build c grammar suppliers documents = .ok full
      | some g => ∃ f, build c grammar suppliers documents = .error (.failFast f) ∧
          Renumbered { grammar, suppliers } c.policy documents t f g ∧
          g.kind = f.kind ∧ g.message = f.message ∧
          g.subject.origin? = f.subject.origin? := by
  have hvalid := Configuration.validate_eq_ok_iff.mpr hcodes
  obtain ⟨f, _, hnever⟩ | ⟨full, hfull, _⟩ :=
    treesOf_of_valid (c := { c with failFast := none }) hvalid grammar suppliers documents
  · cases hnever
  · refine ⟨full, hfull, ?_⟩
    have hcut := cut_of_valid hvalid hstop grammar suppliers hfull
    rw [FindingLog.head?_atLeast]
    rcases hfirst : full.log.first t with _ | g
    · rw [hfirst] at hcut
      exact hcut
    · rw [hfirst] at hcut
      obtain ⟨f, hfail, hsame⟩ := hcut
      exact ⟨f, hfail, hsame, hsame.same⟩

/-- The settings of the template, with errors at which to stop. -/
def hastyTemplate : Configuration := { Configuration.template with failFast := some .error }

/-- The first error about a stray document is the one at which the build stops. -/
theorem failFast_eq_first_strayDocument :
    (∀ code ∈ hastyTemplate.codes, (FindingKind.ofCode? code).isSome = true) ∧
    hastyTemplate.stopAt = some .error ∧
    ∃ full, build { hastyTemplate with failFast := none } Grammar.empty {} [strayDocument] =
        .ok full ∧
      match (full.log.atLeast .error).head? with
      | none => build hastyTemplate Grammar.empty {} [strayDocument] = .ok full
      | some g => ∃ f, build hastyTemplate Grammar.empty {} [strayDocument] =
            .error (.failFast f) ∧
          Renumbered { grammar := Grammar.empty, suppliers := {} } hastyTemplate.policy
            [strayDocument] .error f g ∧
          g.kind = f.kind ∧ g.message = f.message ∧
          g.subject.origin? = f.subject.origin? :=
  have hcodes : ∀ code ∈ hastyTemplate.codes, (FindingKind.ofCode? code).isSome = true := by
    decide
  ⟨hcodes, rfl, failFast_eq_first hcodes rfl Grammar.empty {} [strayDocument]⟩

example : build hastyTemplate Grammar.empty {} [strayDocument] =
    .error (.failFast strayDocument.noModel) := rfl

end Schema
end StatementForest
