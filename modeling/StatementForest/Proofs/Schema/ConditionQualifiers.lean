import StatementForest.Proofs.Condition.ParserCorrectness
import StatementForest.Proofs.Attribute.SchemaAttributes
import StatementForest.Proofs.Build.CardinalityRemarks

/-!
# Qualifiers in conditions

A condition may name a feature with a qualifier that its statement does not bind.  Such a name
counts as a feature that is not supported.  Building does not look at the names in conditions, and
of the stages after merging only pruning blames statements for their qualifiers.  It looks at the
conditions on the children of every statement that it comes to, before it takes any of them out.
What it does not come to stands in a feature, or was taken out with what it stands below.

Main results:

- Theorem `BuildM.blamesNoQualifier_populate`: building blames no statement for a qualifier, by
  recursion on the element.
- Theorem `FeatureRegistry.finds_unboundFeatureQualifier_iff`: what pruning has to come to for a
  condition to be blamed.
- Theorem `Stages.mem_log_iff_found`: after merging nothing else blames it.
- Theorem `Schema.unbound_qualifiers_of_build`: which conditions are blamed in a schema, and
  `Schema.guardedModule_unblamed`: that others are not.

Current gaps:

- Conditions on statements in features are left aside, as pruning does not look at them.
-/

namespace StatementForest

open Store

/-! ## Building does not look at qualifiers in conditions -/

/-- A statement is blamed for a qualifier that is not bound. -/
def Finding.BlamesQualifier (f : Finding) : Prop :=
  f.kind = .unresolvablePrefix ∧ f.node?.isSome = true

/-- A shifted finding blames a qualifier when it did before. -/
theorem Finding.blamesQualifier_shift {f : Finding} {offset : Nat} :
    (f.shift offset).BlamesQualifier ↔ f.BlamesQualifier := by
  obtain ⟨_ | _ | _, kind, message⟩ := f <;> rfl

/-- A finding that is about no statement blames none. -/
theorem Finding.not_blamesQualifier {f : Finding} (hnone : f.node? = none) :
    ¬ f.BlamesQualifier := by
  intro hblames
  rw [BlamesQualifier, hnone] at hblames
  exact Bool.false_ne_true hblames.2

/-- No statement is newly blamed for a qualifier. -/
def BuildState.BlamesNoQualifier (a b : BuildState) : Prop :=
  ∀ f ∈ b.log.entries, f.BlamesQualifier → f ∈ a.log.entries

/-- Steps that blame no statement for a qualifier blame none one after the other. -/
theorem BuildState.BlamesNoQualifier.composable : Composable BlamesNoQualifier where
  refl _ _ hf _ := hf
  trans h h' f hf hblames := h f (h' f hf hblames) hblames

namespace BuildM

open BuildState

variable {env : Environment} {id : NodeId} {e : Element} {f : Finding}

/-- Operations on the store report nothing. -/
theorem blamesNoQualifier_onStore {α : Type} (m : StoreM α) :
    Relates BlamesNoQualifier (onStore m) := by
  intro state
  rw [onStore_apply]
  exact fun _ hf _ => hf

/-- A report of another kind blames no statement for a qualifier. -/
theorem blamesNoQualifier_report (h : ¬ f.BlamesQualifier) :
    Relates BlamesNoQualifier (report env f) := by
  intro state
  rcases hsev : state.log.severityOf f with _ | severity
  · rw [report_apply_of_none hsev]
    exact BlamesNoQualifier.composable.refl state
  · rw [report_apply_of_some hsev]
    intro g hg hblames
    obtain hg | rfl := state.log.mem_add hg
    · exact hg
    · exact absurd hblames h

/-- A report about a statement of another kind blames none for a qualifier. -/
theorem blamesNoQualifier_reportOn {kind : FindingKind} (h : kind ≠ .unresolvablePrefix)
    (message : String) :
    Relates BlamesNoQualifier (reportOn env id kind message) :=
  BlamesNoQualifier.composable.bind (blamesNoQualifier_onStore _) fun _ => blamesNoQualifier_report
    fun hblames => h hblames.1

/-- Blaming a statement for something else blames none for a qualifier. -/
theorem blamesNoQualifier_blame (id : NodeId) {fault? : Option Fault}
    (h : ∀ fault, fault? = some fault → fault.1 ≠ .unresolvablePrefix) :
    Relates BlamesNoQualifier (blame env id fault?) := by
  rcases fault? with _ | fault
  · exact BlamesNoQualifier.composable.pure _
  rw [blame_some]
  exact BlamesNoQualifier.composable.bind (blamesNoQualifier_onStore _) fun _ =>
    blamesNoQualifier_report fun hblames => h fault rfl hblames.1

/-- No check looks at a qualifier. -/
theorem blamesNoQualifier_checks : CheckRelation env BlamesNoQualifier where
  toComposable := BlamesNoQualifier.composable
  blame id _ h := blamesNoQualifier_blame id fun fault hfault => by
    have hkinds : .unresolvablePrefix ∉ Fault.argumentKinds ++ Fault.contentKinds := by decide
    obtain hkind | ⟨hkind, -⟩ | ⟨hkind, -⟩ := (h fault hfault).kind_cases
    · exact fun heq => hkinds (heq ▸ hkind)
    · rw [hkind]
      exact nofun
    · rw [hkind]
      exact nofun
  recordVersion _ := blamesNoQualifier_onStore _

/-- Completing a core statement blames none for a qualifier. -/
theorem blamesNoQualifier_completeCore {k : Keyword} :
    Relates BlamesNoQualifier (completeCore env id k (env.grammar.below k) e) := by
  have g : CheckRelation env BlamesNoQualifier := blamesNoQualifier_checks
  refine g.bind (g.checkCoreArgument id k) fun _ => g.bind (g.checkContent id k) fun _ => ?_
  refine g.bind (g.forM _ fun _ _ => blamesNoQualifier_report ?_) fun _ =>
    blamesNoQualifier_onStore _
  exact Finding.not_blamesQualifier rfl

/-- An element that cannot be made a statement is no statement. -/
theorem blamesNoQualifier_extractChild {parent : NodeId}
    (h : ∀ id v, Relates BlamesNoQualifier (populate env id e v)) :
    Relates BlamesNoQualifier (extractChild env parent e) := by
  have g := BlamesNoQualifier.composable
  rw [extractChild]
  refine g.bind (blamesNoQualifier_onStore _) fun p => g.bind_of (blamesNoQualifier_onStore _)
    fun made a b hmade => ?_
  cases made with
  | rejected finding =>
    have hnone : finding.node? = none := node?_of_canReturn_rejected ⟨a, b, hmade⟩
    exact g.bind (blamesNoQualifier_report (Finding.not_blamesQualifier hnone))
      (fun _ => g.pure _) b
  | created child =>
    exact g.bind (blamesNoQualifier_onStore _) (fun (n : Node) =>
      g.bind (h child n.variant) fun _ => g.pure _) b

/-- Populating a statement blames no statement for a qualifier, by recursion on the element. -/
theorem blamesNoQualifier_populate (e : Element) (id : NodeId) (v : Variant) :
    Relates BlamesNoQualifier (populate env id e v) := by
  have g := BlamesNoQualifier.composable
  have hchild : ∀ child ∈ e.children,
      Relates BlamesNoQualifier (Functor.discard (extractChild env id child)) := by
    intro child hmem
    have := Element.sizeOf_lt_of_mem_children hmem
    exact g.discard (blamesNoQualifier_extractChild fun c w => blamesNoQualifier_populate child c w)
  cases v with
  | core k =>
    rw [populate_core]
    refine g.bind (reportsRemarks_runSteps g (fun child hstep =>
      hchild child (mem_of_extract_mem_grammarSteps hstep)) fun _ _ =>
        blamesNoQualifier_reportOn (by decide) _) fun _ => ?_
    refine g.bind (g.forM _ fun _ _ => blamesNoQualifier_reportOn (by decide) _) fun _ => ?_
    refine g.bind (reportsRemarks_runSteps g (fun child hstep =>
      hchild child (mem_of_extract_mem_extensionSteps hstep)) fun _ _ =>
        blamesNoQualifier_reportOn (by decide) _) fun _ => ?_
    exact blamesNoQualifier_completeCore
  | extension supplier c =>
    rw [populate_extension]
    refine g.bind (reportsRemarks_runSteps g (fun child hstep =>
      hchild child (mem_of_extract_mem_freeSteps hstep)) fun _ _ =>
        blamesNoQualifier_reportOn (by decide) _) fun _ => ?_
    refine blamesNoQualifier_checks.completeExtension (fun id => blamesNoQualifier_blame id ?_) id c
    rintro _ ⟨⟩
    decide
termination_by sizeOf e

end BuildM

namespace SchemaDocument

variable {env : Environment} {policy : SeverityPolicy} {d : SchemaDocument} {f : Finding}

/-- Building a document blames no statement for a qualifier. -/
theorem blamesNoQualifier_populate (d : SchemaDocument) :
    Relates BuildState.BlamesNoQualifier (populate env d) := by
  have g := BuildState.BlamesNoQualifier.composable
  have hapart (f : Finding) (hnone : f.node? = none) :
      Relates BuildState.BlamesNoQualifier (BuildM.report env f) :=
    BuildM.blamesNoQualifier_report (Finding.not_blamesQualifier hnone)
  refine g.bind (BuildM.blamesNoQualifier_onStore _) fun root => .ite ?_ (hapart _ rfl)
  refine g.bind_of (BuildM.blamesNoQualifier_onStore _) fun made a b hmade => ?_
  cases made with
  | rejected finding => exact hapart _ (BuildM.node?_of_canReturn_rejected ⟨a, b, hmade⟩) b
  | created top =>
    refine g.bind (BuildM.blamesNoQualifier_onStore _) (fun _ => ?_) b
    exact g.bind (BuildM.blamesNoQualifier_onStore _) fun n =>
      BuildM.blamesNoQualifier_populate n.element top n.variant

/-- A document is built without blaming statements for their qualifiers. -/
theorem not_blamesQualifier_of_mem_built (h : f ∈ (d.built env policy).log.entries) :
    ¬ f.BlamesQualifier := fun hblames =>
  List.not_mem_nil (blamesNoQualifier_populate d { log := FindingLog.empty policy } f h hblames)

end SchemaDocument

/-- So are several documents. -/
theorem Schema.not_blamesQualifier_of_mem_gather {env : Environment} {policy : SeverityPolicy}
    {f : Finding} {a : BuildState} (ha : ∀ f ∈ a.log.entries, ¬ f.BlamesQualifier)
    (documents : List SchemaDocument) (h : f ∈ (gather env policy a documents).log.entries) :
    ¬ f.BlamesQualifier := by
  induction documents generalizing a with
  | nil => exact ha f h
  | cons d rest ih =>
    refine ih (fun g hg => ?_) h
    obtain hg | ⟨⟨f, hf, rfl⟩, -⟩ := BuildState.mem_absorb.mp hg
    · exact ha g hg
    · rw [Finding.blamesQualifier_shift]
      exact SchemaDocument.not_blamesQualifier_of_mem_built hf

/-! ## What pruning finds at a condition -/

/-- The condition of a statement can be read, and names something with a qualifier that the
statement does not bind. -/
def Node.NamesUnbound (n : Node) (qualifier name : String) : Prop :=
  ∃ e localName, Condition.parse? n.argument = some e ∧ name ∈ e.names ∧
    Text.splitAtFirst ':' name = some (qualifier, localName) ∧
    n.element.scope.module? qualifier = none

/-- A statement sets a condition on another one, with a qualifier that it does not bind. -/
structure Store.UnboundCondition (s : Store) (i p : NodeId) (n : Node) (qualifier name : String) :
    Prop where
  get? : s.get? i = some n
  keyword : n.isKeyword .ifFeature = true
  parent : n.parent = some p
  names : n.NamesUnbound qualifier name

namespace FeatureRegistry

variable {r : FeatureRegistry} {s t : Store} {starts : List NodeId} {findings : List Finding}
  {i p x y : NodeId} {n : Node} {qualifier name : String} {g : Finding}

/-- A statement is a feature, or stands in one. -/
def InFeature (s : Store) (x : NodeId) : Prop := ∃ y, s.Below y x ∧ isFeature s y = true

/-- A statement of another keyword is no feature. -/
theorem isFeature_eq_false {m : Node} {k : Keyword} (hm : s.get? y = some m)
    (hkeyword : m.isKeyword k = true) (hk : k ≠ .feature) : isFeature s y = false := by
  rw [isFeature, hm, Option.any_some, Bool.eq_false_iff, Ne, Node.isKeyword_iff,
    Node.isKeyword_iff.mp hkeyword]
  exact fun heq => hk (Variant.core.inj heq)

/-- Nothing on the way to a statement outside of features is a feature. -/
theorem not_isFeature_of_below (h : ¬ InFeature s x) (hy : s.Below y x) :
    isFeature s y = false := by
  rw [← Bool.not_eq_true]
  exact fun hfeature => h ⟨y, hy, hfeature⟩

/-- What stands below a statement in a feature stands in the feature. -/
theorem InFeature.below (h : InFeature s x) (hy : s.Below x y) : InFeature s y := by
  obtain ⟨z, hz, hfeature⟩ := h
  exact ⟨z, hz.trans hy, hfeature⟩

/-- A statement without a parent stands in a feature when it is one. -/
theorem inFeature_iff_of_top (hx : s.parentOf x = none) :
    InFeature s x ↔ isFeature s x = true := by
  refine ⟨fun ⟨y, hy, hfeature⟩ => ?_, fun hfeature => ⟨x, .self, hfeature⟩⟩
  rwa [← hy.eq_of_parentOf_eq_none hx]

/-- A statement that is no feature stands in one when its parent does. -/
theorem inFeature_iff_of_parentOf (hp : s.parentOf x = some p) (hx : isFeature s x = false) :
    InFeature s x ↔ InFeature s p := by
  refine ⟨fun ⟨y, hy, hfeature⟩ => ?_, fun h => h.below (below_of_parentOf hp)⟩
  obtain rfl | hy := (below_iff_of_parentOf hp).mp hy
  · exact absurd hfeature (Bool.eq_false_iff.mp hx)
  · exact ⟨y, hy, hfeature⟩

/-- A name with a qualifier that is not bound has its finding. -/
theorem unboundFeatureQualifier_mem_nameFindings (h : n.NamesUnbound qualifier name) :
    unboundFeatureQualifier i n qualifier name ∈ nameFindings i n := by
  obtain ⟨e, localName, he, hname, hsplit, hunbound⟩ := h
  rw [nameFindings, he]
  refine List.mem_filterMap.mpr ⟨name, hname, ?_⟩
  rw [hsplit]
  exact if_pos (by rw [hunbound]; rfl)

/-- The findings about names are about the condition that names them. -/
theorem node?_of_mem_nameFindings (h : g ∈ nameFindings i n) : g.node? = some i := by
  rw [nameFindings] at h
  split at h
  · cases h
  obtain ⟨name, -, hname⟩ := List.mem_filterMap.mp h
  split at hname
  · obtain ⟨-, heq⟩ := Option.ite_none_right_eq_some.mp hname
    cases heq
    rfl
  · cases hname

/-- What is found at a statement is about the conditions on it. -/
theorem exists_of_mem_visitFindings (w : s.Wired) (h : g ∈ visitFindings s x) :
    ∃ c, g.node? = some c ∧ s.parentOf c = some x := by
  rw [visitFindings] at h
  split at h
  · cases h
  obtain ⟨c, hc, hg⟩ := List.mem_flatMap.mp h
  refine ⟨c, ?_, w.parentOf_of_mem (List.mem_of_mem_filter hc)⟩
  split at hg
  · exact node?_of_mem_nameFindings hg
  · cases hg

/-- A condition on a statement that is no feature is looked at with the statement. -/
theorem unboundFeatureQualifier_mem_visitFindings (w : s.Wired)
    (h : s.UnboundCondition i p n qualifier name) (hp : isFeature s p = false) :
    unboundFeatureQualifier i n qualifier name ∈ visitFindings s p := by
  have hchild : i ∈ s.childrenOf p :=
    w.mem_of_parentOf ((parentOf_of_get? h.get?).trans h.parent)
  rw [visitFindings_of_not_isFeature hp]
  refine List.mem_flatMap.mpr ⟨i, List.mem_filter.mpr ⟨hchild, ?_⟩, ?_⟩ <;> rw [h.get?]
  · exact h.keyword
  · exact unboundFeatureQualifier_mem_nameFindings h.names

/-- The conditions on a statement are looked at when pruning has come to its parent. -/
theorem finds_unboundFeatureQualifier_iff (w : s.Wired)
    (h : s.UnboundCondition i p n qualifier name) (hp : isFeature s p = false) :
    r.Finds s starts (unboundFeatureQualifier i n qualifier name) ↔
      ∃ a, s.parentOf p = some a ∧ r.Visits s starts a := by
  constructor
  · rintro ⟨a, c, ha, hc, hg⟩
    obtain ⟨d, hd, hdc⟩ := exists_of_mem_visitFindings w hg
    cases hd
    rw [parentOf_of_get? h.get?, h.parent] at hdc
    cases hdc
    exact ⟨a, hc, ha⟩
  · rintro ⟨a, hpa, ha⟩
    exact ⟨a, p, ha, hpa, unboundFeatureQualifier_mem_visitFindings w h hp⟩

/-- Pruning comes to what it leaves, apart from what stands in features. -/
theorem Pruned.visits_iff (h : Pruned r starts s t findings) (hx : s.contains x = true)
    (hfeature : ¬ InFeature s x) (hstart : ∃ top ∈ starts, s.Below top x) :
    r.Visits s starts x ↔ t.contains x = true := by
  constructor
  · intro hvisits
    rw [contains, h.visited x hvisits, Option.isSome_map, ← contains, hx]
  · intro hlive
    obtain ⟨top, htop, hbelow⟩ := hstart
    have hsub : [top] ⊆ starts := fun _ hx => List.mem_singleton.mp hx ▸ htop
    obtain hvisits | ⟨q, c, hq, hrest⟩ := visits_or_removes (r := r) hbelow fun y _ _ hy =>
      not_isFeature_of_below hfeature hy
    · exact hvisits.mono hsub
    · rw [contains, h.removed x ⟨q, c, hq.mono hsub, hrest⟩] at hlive
      cases hlive

end FeatureRegistry

/-! ### Stores with the same statements -/

namespace Store.Alike

variable {s t : Store} {i p x : NodeId} {n : Node} {qualifier name : String}

/-- Whether a statement is a feature is the same in both stores. -/
theorem isFeature (h : s.Alike t) (x : NodeId) :
    FeatureRegistry.isFeature t x = FeatureRegistry.isFeature s x := by
  rw [FeatureRegistry.isFeature, FeatureRegistry.isFeature]
  rcases hn : s.get? x with _ | n
  · have hnone := h.contains x
    rw [Store.contains, Store.contains, hn, Option.isSome_none, Option.isSome_eq_false_iff,
      Option.isNone_iff_eq_none] at hnone
    rw [hnone]
  · obtain ⟨m, hm, hface⟩ := h.exists_get? hn
    rw [hm]
    exact Node.isKeyword_of_face hface _

/-- Whether a statement stands in a feature is the same in both stores. -/
theorem inFeature (h : s.Alike t) :
    FeatureRegistry.InFeature t x ↔ FeatureRegistry.InFeature s x := by
  simp only [FeatureRegistry.InFeature, h.below_iff, h.isFeature]

/-- A condition is the same in both stores, and is blamed for the same. -/
theorem unboundCondition (h : s.Alike t) (hn : s.UnboundCondition i p n qualifier name) :
    ∃ m, t.UnboundCondition i p m qualifier name ∧
      FeatureRegistry.unboundFeatureQualifier i m qualifier name =
        FeatureRegistry.unboundFeatureQualifier i n qualifier name := by
  obtain ⟨m, hm, hface⟩ := h.exists_get? hn.get?
  have helement := Node.element_of_face hface
  refine ⟨m, ⟨hm, (Node.isKeyword_of_face hface _).trans hn.keyword, ?_, ?_⟩, ?_⟩
  · rw [← parentOf_of_get? hm, h.parentOf]
    exact (parentOf_of_get? hn.get?).trans hn.parent
  · rw [Node.NamesUnbound, helement, Node.argument_of_face hface]
    exact hn.names
  · rw [FeatureRegistry.unboundFeatureQualifier, FeatureRegistry.unboundFeatureQualifier,
      Node.subject, Node.subject, helement]

end Store.Alike

/-! ## What a schema tells of qualifiers -/

variable {c : Configuration} {grammar : Grammar} {suppliers : Suppliers}
  {documents : List SchemaDocument} {merged : BuildState} {schema : Schema}

namespace Stages

variable {f : Finding} {i p x : NodeId} {n : Node} {qualifier name : String}
  (stages : Stages c merged schema)

include stages

/-- Of the stages after merging only pruning blames statements for qualifiers that they do not
bind, apart from `base` statements. -/
theorem mem_log_iff_found (hspared : ∀ f ∈ merged.log.entries, ¬ f.BlamesQualifier)
    (hshown : merged.log.policy.suppresses .unresolvablePrefix = false)
    (hf : f.BlamesQualifier) (hbase : ¬ schema.store.IsOnBase f) :
    f ∈ schema.log.entries ↔ f ∈ stages.found := by
  obtain ⟨before, after, hlog, hbefore, hafter⟩ := stages.log
  rw [hlog, FindingLog.mem_addAll, hf.1, List.mem_append, List.mem_append, List.mem_append]
  constructor
  · rintro (h | ⟨h | h | h | h, -⟩)
    · exact absurd hf (hspared f h)
    · have hkind := BuildM.kind_of_mem_linkingFindings h
      simp [hf.1] at hkind
    · have hkind := hbefore f h
      rw [hf.1] at hkind
      cases hkind
    · exact h
    · exact absurd (hafter f h hf.1) hbase
  · exact fun h => .inr ⟨.inr (.inr (.inl h)), hshown⟩

/-- A condition is no `base`. -/
theorem not_isOnBase (h : merged.store.UnboundCondition i p n qualifier name) :
    ¬ schema.store.IsOnBase (FeatureRegistry.unboundFeatureQualifier i n qualifier name) := by
  rintro ⟨x, m, hm, hbase, hx⟩
  cases hx
  obtain ⟨n', hn', hface⟩ := stages.exists_merged hm
  cases h.get?.symm.trans hn'
  have hkeyword := h.keyword
  rw [Node.isKeyword_of_face hface, Node.isKeyword_iff] at hbase
  rw [Node.isKeyword_iff, hbase] at hkeyword
  cases hkeyword

/-- Pruning comes to what is left when it is asked for, apart from what stands in features. -/
theorem visits_iff (hstanding : TreesOf documents merged.store)
    (hx : merged.store.contains x = true)
    (hfeature : ¬ FeatureRegistry.InFeature merged.store x) :
    schema.features.Visits stages.judged (if c.prunes then stages.judged.tops else []) x ↔
      c.prunes = true ∧ schema.store.contains x = true := by
  rw [(Alike.of_renamed stages.ends).contains]
  by_cases hprunes : c.prunes = true
  · rw [and_iff_right hprunes]
    refine stages.prunes.visits_iff ?_ (by rwa [stages.alike_judged.inFeature]) ?_
    · rw [stages.alike_judged.contains, hx]
    · obtain ⟨root, top, htop, hbelow⟩ := hstanding.exists_top hx
      rw [← stages.topOf_judged] at htop
      rw [if_pos hprunes]
      exact ⟨top, TreesOf.mem_tops.mpr (isTop_iff.mpr ⟨root, htop⟩),
        stages.alike_judged.below_iff.mpr hbelow⟩
  · rw [if_neg hprunes]
    refine iff_of_false (fun hvisits => ?_) fun h => hprunes h.1
    obtain ⟨d, hd, -⟩ := hvisits.exists_below
    cases hd

/-- A statement is blamed for a qualifier in a condition on another one when pruning is asked for
and leaves what that one stands below. -/
theorem mem_log_unbound_iff (hstanding : TreesOf documents merged.store)
    (hspared : ∀ f ∈ merged.log.entries, ¬ f.BlamesQualifier)
    (hshown : merged.log.policy.suppresses .unresolvablePrefix = false)
    (h : merged.store.UnboundCondition i p n qualifier name)
    (hfeature : ¬ FeatureRegistry.InFeature merged.store p) :
    FeatureRegistry.unboundFeatureQualifier i n qualifier name ∈ schema.log.entries ↔
      c.prunes = true ∧ ∃ a, merged.store.parentOf p = some a ∧
        schema.store.contains a = true := by
  obtain ⟨m, hm, hsame⟩ := stages.alike_judged.unboundCondition h
  have hp : FeatureRegistry.isFeature stages.judged p = false := by
    rw [stages.alike_judged.isFeature]
    exact FeatureRegistry.not_isFeature_of_below hfeature .self
  have hvisits : ∀ a, merged.store.parentOf p = some a →
      (schema.features.Visits stages.judged (if c.prunes then stages.judged.tops else []) a ↔
        c.prunes = true ∧ schema.store.contains a = true) := fun a ha =>
    stages.visits_iff hstanding (hstanding.owned.wired.contains_parent ha) fun hin =>
      hfeature (hin.below (below_of_parentOf ha))
  rw [stages.mem_log_iff_found hspared hshown ⟨rfl, rfl⟩ (stages.not_isOnBase h),
    stages.prunes.mem_findings, ← hsame,
    FeatureRegistry.finds_unboundFeatureQualifier_iff stages.owned_judged.wired hm hp,
    stages.alike_judged.parentOf]
  constructor
  · rintro ⟨a, ha, hvisit⟩
    obtain ⟨hprunes, hleft⟩ := (hvisits a ha).mp hvisit
    exact ⟨hprunes, a, ha, hleft⟩
  · rintro ⟨hprunes, a, ha, hleft⟩
    exact ⟨a, ha, (hvisits a ha).mpr ⟨hprunes, hleft⟩⟩

end Stages

namespace Schema

variable {i p : NodeId} {n : Node} {qualifier name : String}

/-- Building more documents keeps the policy. -/
theorem policy_gather (env : Environment) (policy : SeverityPolicy) (a : BuildState)
    (documents : List SchemaDocument) :
    (gather env policy a documents).log.policy = a.log.policy := by
  induction documents generalizing a with
  | nil => rfl
  | cons d rest ih => rw [gather_cons, ih, BuildState.absorb, FindingLog.policy_addAll]

/-- What was merged is what the stages of a build start from. -/
theorem stages_of_merge (hmerge : merge { grammar, suppliers } c.policy documents = .ok merged)
    (hbuild : build c grammar suppliers documents = .ok schema) :
    Nonempty (Stages c merged schema) ∧ TreesOf documents merged.store ∧
      merged.log.policy = c.policy ∧ ∀ f ∈ merged.log.entries, ¬ f.BlamesQualifier := by
  obtain ⟨gathered, hgathered, -, hsound, -, hstages⟩ := exists_stages hbuild
  have hstop : ({ grammar, suppliers } : Environment).stopAt = none := rfl
  rw [merge_eq_gather hstop, ← hgathered] at hmerge
  cases hmerge
  refine ⟨hstages, hsound.treesOf, ?_, fun f hf => ?_⟩
  · rw [hgathered, policy_gather]
    rfl
  · rw [hgathered] at hf
    exact not_blamesQualifier_of_mem_gather (fun _ hf => by cases hf) documents hf

/-- Which statements are blamed for the qualifiers in conditions on statements that are no features
and stand in none. -/
theorem mem_log_unbound_iff
    (hmerge : merge { grammar, suppliers } c.policy documents = .ok merged)
    (hbuild : build c grammar suppliers documents = .ok schema)
    (hshown : c.policy.suppresses .unresolvablePrefix = false)
    (h : merged.store.UnboundCondition i p n qualifier name)
    (hfeature : ¬ FeatureRegistry.InFeature merged.store p) :
    FeatureRegistry.unboundFeatureQualifier i n qualifier name ∈ schema.log.entries ↔
      c.prunes = true ∧ ∃ a, merged.store.parentOf p = some a ∧
        schema.store.contains a = true := by
  obtain ⟨⟨stages⟩, hstanding, hpolicy, hspared⟩ := stages_of_merge hmerge hbuild
  exact stages.mem_log_unbound_iff hstanding hspared (hpolicy ▸ hshown) h hfeature

/-- Every list of documents is merged and built when nothing asks to stop. -/
theorem exists_merge_build (hvalid : c.validate = .ok ()) (hstop : c.stopAt = none)
    (grammar : Grammar) (suppliers : Suppliers) (documents : List SchemaDocument) :
    ∃ merged schema, merge { grammar, suppliers } c.policy documents = .ok merged ∧
      build c grammar suppliers documents = .ok schema := by
  obtain ⟨_, _, hnever⟩ | ⟨schema, hbuild, -⟩ :=
    treesOf_of_valid hvalid grammar suppliers documents
  · rw [hstop] at hnever
    cases hnever
  · exact ⟨_, schema, merge_eq_gather rfl c.policy documents, hbuild⟩

/-- When nothing asks to stop, every list of documents is built.  A condition on a statement that
is no feature and stands in none is blamed for a qualifier that it does not bind when pruning is
asked for and the statement stands below one that is left.  So nothing is said of conditions on
the top of a tree, or when statements are not taken out. -/
theorem unbound_qualifiers_of_build (hvalid : c.validate = .ok ()) (hstop : c.stopAt = none)
    (hshown : c.policy.suppresses .unresolvablePrefix = false) (grammar : Grammar)
    (suppliers : Suppliers) (documents : List SchemaDocument) :
    ∃ merged schema, merge { grammar, suppliers } c.policy documents = .ok merged ∧
      build c grammar suppliers documents = .ok schema ∧
      ∀ i p n qualifier name, merged.store.UnboundCondition i p n qualifier name →
        ¬ FeatureRegistry.InFeature merged.store p →
        (FeatureRegistry.unboundFeatureQualifier i n qualifier name ∈ schema.log.entries ↔
          c.prunes = true ∧ ∃ a, merged.store.parentOf p = some a ∧
            schema.store.contains a = true) := by
  obtain ⟨merged, schema, hmerge, hbuild⟩ := exists_merge_build hvalid hstop grammar suppliers
    documents
  exact ⟨merged, schema, hmerge, hbuild, fun i p n qualifier name h hfeature =>
    mem_log_unbound_iff hmerge hbuild hshown h hfeature⟩

/-! ### A guarded module -/

/-- The entries of a grammar with conditions on modules and on leaves. -/
def guardingEntries : List (String × Cardinalities) :=
  [("module", { optionalMultiple := ["if-feature", "leaf"] }),
    ("leaf", { optionalMultiple := ["if-feature"] })]

/-- A grammar with conditions on modules and on leaves. -/
def guardingGrammar : Grammar := ⟨Dictionary.ofList guardingEntries⟩

/-- The lists of this grammar are proper. -/
theorem proper_guardingGrammar : guardingGrammar.Proper := by
  intro name c h
  have hentries : ∀ e ∈ guardingEntries, e.2.Proper := by decide
  exact hentries _ (Dictionary.mem_of_find?_ofList h)

/-- A condition with a qualifier that is not bound. -/
def unboundGuard : Element := plainElement "if-feature" "x:f"

/-- The condition can be read, and is one name. -/
theorem parse?_unboundGuard :
    Condition.parse? unboundGuard.argument = some (.feature unboundGuard.argument) := by
  have hread : Condition.parse unboundGuard.argument = .ok (.feature unboundGuard.argument) :=
    Condition.ofTokens_eq_ok_iff.mpr
      ⟨.term (.factor (.name unboundGuard.argument)), rfl, ⟨by decide, by decide⟩, rfl⟩
  rw [Condition.parse?, hread]
  rfl

/-- A leaf with this condition. -/
def guardedLeaf : Element := { plainElement "leaf" "a" with children := [unboundGuard] }

/-- A module with this condition, and with the leaf. -/
def guardedModule : SchemaDocument where
  element := { plainElement "module" "m" with children := [unboundGuard, guardedLeaf] }
  source := none
  conformance := .implement

/-- A child that views the condition sets it on its parent. -/
theorem unboundCondition_of_mem {s : Store} (w : s.Wired) {i p : NodeId} {n : Node}
    (hi : i ∈ s.childrenOfKeyword p .ifFeature) (hn : s.get? i = some n)
    (helement : n.element = unboundGuard) : s.UnboundCondition i p n "x" "x:f" := by
  obtain ⟨hchild, hkeyword⟩ := List.mem_filter.mp hi
  have hargument : n.argument = "x:f" := by
    rw [Node.argument, helement]
    decide
  refine ⟨hn, ?_, ?_, .feature "x:f", "f", ?_, by decide, by decide, ?_⟩
  · rwa [hn, Option.any_some] at hkeyword
  · rw [← parentOf_of_get? hn, w.parentOf_of_mem hchild]
  · rw [hargument]
    exact parse?_unboundGuard
  · rw [helement]
    rfl

/-- The statements that are made for the module. -/
theorem conditions_guardedModule
    (hmerge : merge { grammar := guardingGrammar, suppliers := {} } c.policy [guardedModule] =
      .ok merged)
    (hbuild : build c guardingGrammar {} [guardedModule] = .ok schema) :
    ∃ top p i j n m, merged.store.parentOf top = none ∧ schema.store.contains top = true ∧
      merged.store.parentOf p = some top ∧ ¬ FeatureRegistry.InFeature merged.store p ∧
      merged.store.UnboundCondition i top n "x" "x:f" ∧
      merged.store.UnboundCondition j p m "x" "x:f" := by
  obtain ⟨hsound, hobeys⟩ := obeysGrammar_of_merge proper_guardingGrammar hmerge
  obtain ⟨⟨stages⟩, -⟩ := stages_of_merge hmerge hbuild
  have w := hsound.treesOf.owned.wired
  -- the module, its condition and its leaf
  obtain ⟨top, a, htop, ha, haelement⟩ :=
    exists_top_of_build proper_guardingGrammar hbuild (i := 0) (d := guardedModule) rfl (by decide)
  have hleft := contains_iff.mpr ⟨a, ha⟩
  rw [stages.topOf] at htop
  obtain ⟨a', ha', hface⟩ := stages.exists_merged ha
  have haelement' : a'.element = guardedModule.element := by
    rw [← Node.element_of_face hface, haelement]
  have hmodule := (hsound.faithful.isKeyword_iff ha' .module).mpr (by rw [haelement']; rfl)
  have hkept : ∀ e ∈ guardedModule.element.children,
      e ∈ guardingGrammar.keptBelow a'.variant a'.element.children := by
    rw [Node.isKeyword_iff.mp hmodule, haelement']
    exact fun e he => he
  obtain ⟨i, n, hi, hn, hnelement⟩ := hobeys.exists_child hsound ha'
    (hkept unboundGuard List.mem_cons_self) (l := .ifFeature) rfl
  obtain ⟨p, b, hp, hb, hbelement⟩ := hobeys.exists_child hsound ha'
    (hkept guardedLeaf (List.mem_cons_of_mem _ List.mem_cons_self)) (l := .leaf) rfl
  have hparent := w.parentOf_of_mem (List.mem_of_mem_filter hp)
  -- the condition on the leaf
  have hleaf := (hsound.faithful.isKeyword_iff hb .leaf).mpr (by rw [hbelement]; rfl)
  obtain ⟨j, m, hj, hm, hmelement⟩ := hobeys.exists_child hsound hb (e := unboundGuard)
    (by rw [Node.isKeyword_iff.mp hleaf, hbelement]; exact List.mem_cons_self)
    (l := .ifFeature) rfl
  have hnone := hsound.treesOf.owned.rooted.parentOf_top ⟨0⟩ top htop
  refine ⟨top, p, i, j, n, m, hnone, hleft, hparent, ?_, unboundCondition_of_mem w hi hn hnelement,
    unboundCondition_of_mem w hj hm hmelement⟩
  have hleafPlain := FeatureRegistry.isFeature_eq_false hb hleaf (by decide)
  have htopPlain := FeatureRegistry.isFeature_eq_false ha' hmodule (by decide)
  rw [FeatureRegistry.inFeature_iff_of_parentOf hparent hleafPlain,
    FeatureRegistry.inFeature_iff_of_top hnone, htopPlain]
  exact Bool.false_ne_true

/-- Settings with which statements are taken out. -/
def pruningSettings : Configuration := { Configuration.template with pruning := some true }

/-- The leaf is taken out, and its condition is blamed for the qualifier. -/
theorem unbound_qualifiers_of_build_guardedModule : pruningSettings.validate = .ok () ∧
    pruningSettings.stopAt = none ∧
    pruningSettings.policy.suppresses .unresolvablePrefix = false ∧
    ∃ merged schema j p m,
      merge { grammar := guardingGrammar, suppliers := {} } pruningSettings.policy
        [guardedModule] = .ok merged ∧
      build pruningSettings guardingGrammar {} [guardedModule] = .ok schema ∧
      merged.store.UnboundCondition j p m "x" "x:f" ∧
      ¬ FeatureRegistry.InFeature merged.store p ∧
      FeatureRegistry.unboundFeatureQualifier j m "x" "x:f" ∈ schema.log.entries := by
  have hvalid : pruningSettings.validate = .ok () := by rfl
  have hshown : pruningSettings.policy.suppresses .unresolvablePrefix = false := by rfl
  obtain ⟨merged, schema, hmerge, hbuild, hiff⟩ :=
    unbound_qualifiers_of_build hvalid rfl hshown guardingGrammar {} [guardedModule]
  obtain ⟨top, p, i, j, n, m, -, hleft, hparent, hfeature, -, hj⟩ :=
    conditions_guardedModule hmerge hbuild
  exact ⟨hvalid, rfl, hshown, merged, schema, j, p, m, hmerge, hbuild, hj, hfeature,
    (hiff j p m "x" "x:f" hj hfeature).mpr ⟨rfl, top, hparent, hleft⟩⟩

/-- When statements are not taken out, the condition on the leaf is not blamed, and when they are,
the condition on the module is not, although each statement is still there. -/
theorem guardedModule_unblamed :
    (∃ merged schema j p m,
      merge { grammar := guardingGrammar, suppliers := {} } Configuration.template.policy
        [guardedModule] = .ok merged ∧
      build Configuration.template guardingGrammar {} [guardedModule] = .ok schema ∧
      Configuration.template.stopAt = none ∧
      Configuration.template.policy.suppresses .unresolvablePrefix = false ∧
      merged.store.UnboundCondition j p m "x" "x:f" ∧ schema.store.contains j = true ∧
      FeatureRegistry.unboundFeatureQualifier j m "x" "x:f" ∉ schema.log.entries) ∧
    ∃ merged schema i top n,
      merge { grammar := guardingGrammar, suppliers := {} } pruningSettings.policy
        [guardedModule] = .ok merged ∧
      build pruningSettings guardingGrammar {} [guardedModule] = .ok schema ∧
      pruningSettings.stopAt = none ∧
      pruningSettings.policy.suppresses .unresolvablePrefix = false ∧
      merged.store.UnboundCondition i top n "x" "x:f" ∧ schema.store.contains top = true ∧
      FeatureRegistry.unboundFeatureQualifier i n "x" "x:f" ∉ schema.log.entries := by
  have hshown : Configuration.template.policy.suppresses .unresolvablePrefix = false := by rfl
  constructor
  · obtain ⟨merged, schema, hmerge, hbuild⟩ := exists_merge_build
      (c := Configuration.template) rfl rfl guardingGrammar {} [guardedModule]
    obtain ⟨top, p, i, j, n, m, -, -, -, hfeature, -, hj⟩ := conditions_guardedModule hmerge hbuild
    obtain ⟨⟨stages⟩, -⟩ := stages_of_merge hmerge hbuild
    refine ⟨merged, schema, j, p, m, hmerge, hbuild, rfl, hshown, hj, ?_, fun hlog => ?_⟩
    · rw [(stages.alike rfl).contains]
      exact contains_iff.mpr ⟨m, hj.get?⟩
    · obtain ⟨hprunes, -⟩ := (mem_log_unbound_iff hmerge hbuild hshown hj hfeature).mp hlog
      cases hprunes
  · obtain ⟨merged, schema, hmerge, hbuild⟩ := exists_merge_build
      (c := pruningSettings) rfl rfl guardingGrammar {} [guardedModule]
    obtain ⟨top, p, i, j, n, m, hnone, hleft, hparent, hfeature, hi, -⟩ :=
      conditions_guardedModule hmerge hbuild
    refine ⟨merged, schema, i, top, n, hmerge, hbuild, rfl, hshown, hi, hleft, fun hlog => ?_⟩
    obtain ⟨-, a, ha, -⟩ := (mem_log_unbound_iff hmerge hbuild hshown hi fun hin =>
      hfeature (hin.below (below_of_parentOf hparent))).mp hlog
    rw [hnone] at ha
    cases ha

end Schema
end StatementForest
