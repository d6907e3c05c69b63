import StatementForest.Proofs.Store.FindingIndependence
import StatementForest.Proofs.Store.FindingPreservation

/-!
# Uniform relations between runs

Two runs of a build that differ only in the severity at which to stop, or in what is
recorded, take the same steps.  A relation between building steps that is kept when
steps are put together, and that holds of reports and of operations that look at no
finding and keep those that are there, therefore holds of the whole build.

While a document is built, every report is about a live statement or about an element.
What follows merging may report about statements that are gone.

Main results:

- Theorem `Uniform.populate`: such a relation holds of populating a statement, by
  recursion on the element.
- Theorem `Uniform.populateDocument`: it holds of building a document.
- Theorem `Uniform.resolve`: it holds of everything that follows merging.
-/

namespace StatementForest

/-! ## Reports -/

namespace BuildM

/-- The state after a report. -/
def reported (state : BuildState) (f : Finding) : BuildState where
  store := state.store.attachFinding f
  log := (state.log.add f).1

/-- Reporting a finding that is suppressed changes nothing. -/
theorem report_apply_of_none {state : BuildState} {f : Finding}
    (h : state.log.severityOf f = none) (env : Environment) :
    report env f state = (.ok (), state) := by
  rw [report, bind_apply, get_apply]
  simp only [h]
  rfl

/-- Reporting a finding records it, and stops the build when it is serious enough. -/
theorem report_apply_of_some {state : BuildState} {f : Finding} {severity : Severity}
    (h : state.log.severityOf f = some severity) (env : Environment) :
    report env f state =
      (if env.stopAt.any severity.reaches then .error (.failFast f) else .ok (),
        reported state f) := by
  rw [report, bind_apply, get_apply]
  simp only [h]
  rw [bind_apply, modify_apply]
  dsimp only
  split <;> rfl

end BuildM

/-! ## Relations -/

/-- A result that a building step can have. -/
def BuildM.CanReturn {α : Type} (m : BuildM α) (a : α) : Prop := ∃ state t, m state = (.ok a, t)

/-- The finding about an element that is rejected is about no statement. -/
theorem BuildM.node?_of_canReturn_rejected {suppliers : Suppliers} {e : Element}
    {parent? : Option NodeId} {root : RootId} {f : Finding}
    (h : (onStore (StoreM.instantiate suppliers e parent? root)).CanReturn (.rejected f)) :
    f.node? = none := by
  obtain ⟨state, t, h⟩ := h
  rw [onStore_apply, Prod.mk.injEq] at h
  have hresult := h.1
  rw [StoreM.instantiate] at hresult
  rcases hresolve : suppliers.resolveElement e with g | r <;> rw [hresolve] at hresult
  · cases hresult
    exact Suppliers.node?_of_resolveElement_eq_error hresolve
  · -- a statement is made, and is put below its parent or fails to be
    rcases parent? with _ | parent
    · cases hresult
    · simp only [bind_apply, modifyGet_apply] at hresult
      split at hresult <;> cases hresult

/-- The same environment with a severity at which to stop, or without one. -/
def Environment.stopping (env : Environment) (stopAt : Option Severity) : Environment :=
  { env with stopAt }

/-- A relation between the steps of two builds that is kept by all ways to put steps
together.  What is done with a statement or a store may not depend on findings. -/
structure Uniform (env : Environment) (stopAt stopAt' : Option Severity)
    (R : {α : Type} → BuildM α → BuildM α → Prop) : Prop where
  pure : ∀ {α : Type} (a : α), R (pure a) (pure a)
  /-- The second step is only looked at for results that the first one can have. -/
  bind_of : ∀ {α β : Type} {m m' : BuildM α} {f f' : α → BuildM β}, R m m' →
    (∀ a, m.CanReturn a → R (f a) (f' a)) → R (m >>= f) (m' >>= f')
  look : ∀ {β : Type} {id : NodeId} {f f' : Node → BuildM β},
    (∀ n g, f' (n.mapFindings g) = f' n) → (∀ n, R (f n) (f' n)) →
    R (BuildM.node id >>= f) (BuildM.node id >>= f')
  store : ∀ {β : Type} {f f' : Store → BuildM β},
    (∀ s g, f' (s.mapFindings g) = f' s) → (∀ s, R (f s) (f' s)) →
    R (BuildM.store >>= f) (BuildM.store >>= f')
  onStore : ∀ {α : Type} {m : StoreM α}, IgnoresFindings m → PreservesFindings m →
    R (BuildM.onStore m) (BuildM.onStore m)
  reportOn : ∀ id kind message, R (BuildM.reportOn (env.stopping stopAt) id kind message)
    (BuildM.reportOn (env.stopping stopAt') id kind message)
  reportApart : ∀ f : Finding, f.node? = none →
    R (BuildM.report (env.stopping stopAt) f) (BuildM.report (env.stopping stopAt') f)

namespace Uniform

variable {env : Environment} {a b : Option Severity}
  {R : {α : Type} → BuildM α → BuildM α → Prop} (u : Uniform env a b R) {α β : Type}

include u

/-! ## Putting steps together -/

/-- Steps that are related one by one are related one after the other. -/
theorem bind {m m' : BuildM α} {f f' : α → BuildM β} (h : R m m') (h' : ∀ a, R (f a) (f' a)) :
    R (m >>= f) (m' >>= f') := u.bind_of h fun a _ => h' a

omit u in
/-- Choices between related steps are related. -/
theorem ite {p : Prop} [Decidable p] {m m' n n' : BuildM α} (h : R m m') (h' : R n n') :
    R (if p then m else n) (if p then m' else n') := by
  by_cases hp : p
  · rw [if_pos hp, if_pos hp]
    exact h
  · rw [if_neg hp, if_neg hp]
    exact h'

/-- Rows of related steps are related. -/
theorem forM {f f' : α → BuildM PUnit} (items : List α) (h : ∀ a, R (f a) (f' a)) :
    R (items.forM f) (items.forM f') := by
  induction items with
  | nil => exact u.pure _
  | cons a rest ih => exact u.bind (h a) fun _ => ih

theorem tree (r : RootId) : R (BuildM.onStore (StoreM.tree r)) (BuildM.onStore (StoreM.tree r)) :=
  u.onStore (IgnoresFindings.tree r) (Store.KeepsFindings.stepwise.tree r)

theorem childrenOfKeyword (id : NodeId) (k : Keyword) :
    R (BuildM.onStore (StoreM.childrenOfKeyword id k))
      (BuildM.onStore (StoreM.childrenOfKeyword id k)) :=
  u.onStore (IgnoresFindings.childrenOfKeyword id k)
    (Store.KeepsFindings.stepwise.childrenOfKeyword id k)

theorem instantiate (suppliers : Suppliers) (e : Element) (parent? : Option NodeId)
    (root : RootId) :
    R (BuildM.onStore (StoreM.instantiate suppliers e parent? root))
      (BuildM.onStore (StoreM.instantiate suppliers e parent? root)) :=
  u.onStore (IgnoresFindings.instantiate suppliers e parent? root)
    (Store.KeepsFindings.stepwise.instantiate suppliers e parent? root)

/-- Steps stay related when their results are left aside. -/
theorem discard {m m' : BuildM α} (h : R m m') : R (Functor.discard m) (Functor.discard m') := by
  rw [discard_eq_bind, discard_eq_bind]
  exact u.bind h fun _ => u.pure ()

/-! ## Checks -/

theorem blame (id : NodeId) (fault? : Option Fault) :
    R (BuildM.blame (env.stopping a) id fault?) (BuildM.blame (env.stopping b) id fault?) := by
  cases fault? with
  | none => exact u.pure ()
  | some fault => exact u.reportOn id fault.1 fault.2

theorem checkCoreArgument (id : NodeId) (k : Keyword) :
    R (BuildM.checkCoreArgument (env.stopping a) id k)
      (BuildM.checkCoreArgument (env.stopping b) id k) :=
  u.look (fun _ _ => rfl) fun _ => u.blame id _

theorem requireChild (id : NodeId) (child : Keyword) (kind : FindingKind) :
    R (BuildM.requireChild (env.stopping a) id child kind)
      (BuildM.requireChild (env.stopping b) id child kind) := by
  refine u.bind (u.childrenOfKeyword id child) fun found => ite ?_ (u.pure _)
  exact u.look (fun _ _ => rfl) fun _ => u.blame id _

theorem checkAmendments {fault? : Node → Option Fault}
    (hfault : ∀ n g, fault? (n.mapFindings g) = fault? n) (children : List NodeId) :
    R (BuildM.checkAmendments (env.stopping a) fault? children)
      (BuildM.checkAmendments (env.stopping b) fault? children) := by
  refine u.forM children fun child => u.look (fun n g => ?_) fun _ => u.blame child _
  rw [hfault]

theorem checkDeviation (id : NodeId) :
    R (BuildM.checkDeviation (env.stopping a) id) (BuildM.checkDeviation (env.stopping b) id) := by
  refine u.look (fun _ _ => rfl) fun n => ?_
  refine ite (u.checkAmendments (fun _ _ => rfl) _) (ite ?_ (u.pure _))
  refine ite (u.blame id _) (ite (u.pure _) (u.checkAmendments (fun _ _ => rfl) _))

theorem checkContent (id : NodeId) (k : Keyword) :
    R (BuildM.checkContent (env.stopping a) id k) (BuildM.checkContent (env.stopping b) id k) := by
  unfold BuildM.checkContent
  split
  · exact u.checkDeviation id
  · exact u.requireChild id .value .enumWithoutValue
  · exact u.requireChild id .position .bitWithoutPosition
  · exact u.pure ()

theorem checkParent (id : NodeId) (rule : ExtensionRule) :
    R (BuildM.checkParent (env.stopping a) id rule)
      (BuildM.checkParent (env.stopping b) id rule) := by
  refine u.look (fun _ _ => rfl) fun n => ?_
  rcases n.parent with _ | parent
  · exact u.pure _
  · exact u.look (fun _ _ => rfl) fun _ => u.blame id _

theorem checkRepetition (id : NodeId) (rule : ExtensionRule) :
    R (BuildM.checkRepetition (env.stopping a) id rule)
      (BuildM.checkRepetition (env.stopping b) id rule) := by
  refine ite (u.pure _) (u.look (fun _ _ => rfl) fun n => ?_)
  rcases n.parent with _ | parent
  · exact u.pure _
  · exact u.bind (u.onStore (IgnoresFindings.childrenWithKey parent rule.key)
      (Store.KeepsFindings.stepwise.childrenWithKey parent rule.key)) fun _ => u.blame id _

theorem checkRule (id : NodeId) (rule : ExtensionRule) :
    R (BuildM.checkRule (env.stopping a) id rule)
      (BuildM.checkRule (env.stopping b) id rule) := by
  refine u.look (fun _ _ => rfl) fun n => u.bind (u.blame id _) fun _ => ?_
  refine u.bind (u.blame id _) fun _ => u.bind (u.checkParent id rule) fun _ => ?_
  exact u.checkRepetition id rule

theorem followUp (id : NodeId) (f : FollowUp) :
    R (BuildM.followUp (env.stopping a) id f) (BuildM.followUp (env.stopping b) id f) := by
  cases f with
  | nothing => exact u.pure ()
  | expectType =>
    exact u.bind (u.childrenOfKeyword id .type) fun _ => u.blame id _
  | expectSides =>
    refine u.forM _ fun side => u.bind (u.onStore (IgnoresFindings.sideChildren id side)
      (Store.KeepsFindings.stepwise.sideChildren id side)) fun _ => u.blame id _
  | recordVersion =>
    exact u.onStore (IgnoresFindings.recordVersion id)
      (Store.KeepsFindings.stepwise.recordVersion id)

/-! ## Populating -/

theorem completeCore (id : NodeId) (k : Keyword) (c : Cardinalities) (e : Element) :
    R (BuildM.completeCore (env.stopping a) id k c e)
      (BuildM.completeCore (env.stopping b) id k c e) := by
  refine u.bind (u.checkCoreArgument id k) fun _ => u.bind (u.checkContent id k) fun _ => ?_
  refine u.bind (u.forM _ fun _ => u.reportApart _ rfl) fun _ => ?_
  exact u.onStore (IgnoresFindings.numberChildren id)
    (Store.KeepsFindings.stepwise.numberChildren id)

theorem completeExtension (id : NodeId) (c : ExtensionClass) :
    R (BuildM.completeExtension (env.stopping a) id c)
      (BuildM.completeExtension (env.stopping b) id c) := by
  cases c with
  | generic => exact u.pure ()
  | ruled rule => exact u.bind (u.checkRule id rule) fun _ => u.followUp id _

/-- Extracting children is related when extracting each of them is, by induction on the steps. -/
theorem runSteps (id : NodeId) (name : String) {steps : List ChildStep}
    {extract extract' : (child : Element) → .extract child ∈ steps → BuildM Unit}
    (h : ∀ child hmem, R (extract child hmem) (extract' child hmem)) :
    R (BuildM.runSteps (env.stopping a) id name steps extract)
      (BuildM.runSteps (env.stopping b) id name steps extract') := by
  induction steps with
  | nil => exact u.pure ()
  | cons step rest ih =>
    have hrest := ih fun child hmem => h child (List.mem_cons_of_mem _ hmem)
    cases step with
    | extract child => exact u.bind (h child List.mem_cons_self) fun _ => hrest
    | repeated child => exact u.bind (u.reportOn id _ _) fun _ => hrest

/-- A child element is made a statement, given that it is populated. -/
theorem extractChild_of_populate {e : Element}
    (h : ∀ (id : NodeId) (v : Variant), R (BuildM.populate (env.stopping a) id e v)
      (BuildM.populate (env.stopping b) id e v)) (parent : NodeId) :
    R (BuildM.extractChild (env.stopping a) parent e)
      (BuildM.extractChild (env.stopping b) parent e) := by
  rw [BuildM.extractChild, BuildM.extractChild]
  refine u.look (fun _ _ => rfl) fun p => ?_
  refine u.bind_of (u.instantiate _ e _ p.root) fun made hmade => ?_
  cases made with
  | rejected finding =>
    have happart := BuildM.node?_of_canReturn_rejected hmade
    exact u.bind (u.reportApart finding happart) fun _ => u.pure _
  | created id =>
    exact u.look (fun _ _ => rfl) fun n => u.bind (h id n.variant) fun _ => u.pure _

/-- Populating a statement is related under any two thresholds, by recursion on the element. -/
theorem populate (e : Element) (id : NodeId) (v : Variant) :
    R (BuildM.populate (env.stopping a) id e v) (BuildM.populate (env.stopping b) id e v) := by
  have hchild : ∀ child ∈ e.children,
      R (Functor.discard (BuildM.extractChild (env.stopping a) id child))
        (Functor.discard (BuildM.extractChild (env.stopping b) id child)) := by
    intro child hmem
    have := Element.sizeOf_lt_of_mem_children hmem
    exact u.discard (u.extractChild_of_populate (fun c w => populate child c w) id)
  cases v with
  | core k =>
    rw [BuildM.populate_core, BuildM.populate_core]
    refine u.bind (u.runSteps id _ fun child h =>
      hchild child (mem_of_extract_mem_grammarSteps h)) fun _ => ?_
    refine u.bind (u.forM _ fun _ => u.reportOn id _ _) fun _ => ?_
    refine u.bind (u.runSteps id _ fun child h =>
      hchild child (mem_of_extract_mem_extensionSteps h)) fun _ => ?_
    exact u.completeCore id k _ e
  | extension supplier c =>
    rw [BuildM.populate_extension, BuildM.populate_extension]
    refine u.bind (u.runSteps id _ fun child h =>
      hchild child (mem_of_extract_mem_freeSteps h)) fun _ => ?_
    exact u.completeExtension id c
termination_by sizeOf e

theorem process (id : NodeId) :
    R (BuildM.process (env.stopping a) id) (BuildM.process (env.stopping b) id) :=
  u.look (fun _ _ => rfl) fun n => u.populate n.element id n.variant

theorem populateDocument (d : SchemaDocument) :
    R (d.populate (env.stopping a)) (d.populate (env.stopping b)) := by
  refine u.bind (u.onStore (IgnoresFindings.addTree _ _) (Store.KeepsFindings.stepwise.addTree _ _))
    fun root =>
    ite ?_ (u.reportApart _ rfl)
  refine u.bind_of (u.instantiate _ _ _ _) fun made hmade => ?_
  cases made with
  | created top =>
    exact u.bind (u.onStore (IgnoresFindings.setTop root top)
      (Store.KeepsFindings.stepwise.setTop root top)) fun _ =>
      u.process top
  | rejected finding => exact u.reportApart finding (BuildM.node?_of_canReturn_rejected hmade)

/-! ## Linking and resolving -/

theorem checkIncludes (tables : ModelTables) (r : RootId) :
    R (BuildM.checkIncludes (env.stopping a) tables r)
      (BuildM.checkIncludes (env.stopping b) tables r) := by
  refine u.bind (u.tree r) fun tree => ?_
  rcases tree.top with _ | top
  · exact u.pure _
  refine u.bind (u.childrenOfKeyword top _) fun included => ?_
  refine u.forM included fun id => u.look (fun _ _ => rfl) fun n => ?_
  exact ite (u.pure _) (u.reportOn id _ _)

theorem reportOrphan (policy : OrphanPolicy) (top belongsTo : NodeId)
    (submodule owner : String) :
    R (BuildM.reportOrphan (env.stopping a) policy top belongsTo submodule owner)
      (BuildM.reportOrphan (env.stopping b) policy top belongsTo submodule owner) :=
  u.bind (u.reportOn belongsTo _ _) fun _ => ite (u.reportOn top _ _) (u.pure _)

theorem joinModule (ownerRoot root : RootId) (top : NodeId) (submodule owner : String) :
    R (BuildM.joinModule (env.stopping a) ownerRoot root top submodule owner)
      (BuildM.joinModule (env.stopping b) ownerRoot root top submodule owner) := by
  refine u.bind (u.onStore (IgnoresFindings.linkSubmodule ownerRoot root)
    (Store.KeepsFindings.stepwise.linkSubmodule ownerRoot root)) fun _ => ?_
  refine u.bind (u.onStore (IgnoresFindings.includes ownerRoot submodule)
    (Store.KeepsFindings.stepwise.includes ownerRoot submodule)) fun _ => ?_
  exact ite (u.pure _) (u.reportOn top _ _)

theorem linkTree (policy : OrphanPolicy) (tables : ModelTables) (r : RootId) :
    R (BuildM.linkTree (env.stopping a) policy tables r)
      (BuildM.linkTree (env.stopping b) policy tables r) := by
  refine u.bind (u.tree r) fun tree => ?_
  rcases tree.top with _ | top
  · exact u.pure _
  refine u.bind (u.childrenOfKeyword top _) fun found => ?_
  rcases found with _ | ⟨belongsTo, rest⟩
  · exact u.pure _
  refine u.look (fun _ _ => rfl) fun n => u.look (fun _ _ => rfl) fun t => ?_
  dsimp only
  rcases tables.modules.find? n.argument with _ | ownerRoot
  · exact u.reportOrphan policy top belongsTo _ _
  · exact u.joinModule ownerRoot r top _ _

theorem linkModules (policy : OrphanPolicy) :
    R (BuildM.linkModules (env.stopping a) policy)
      (BuildM.linkModules (env.stopping b) policy) := by
  refine u.store (fun s g => ?_) fun s => ?_
  · rw [ModelTables.ofStore_mapFindings]
  refine u.bind (u.forM _ fun r => u.checkIncludes _ r) fun _ => ?_
  exact u.bind (u.forM _ fun r => u.linkTree policy _ r) fun _ => u.pure _

/-! ## What follows merging -/

section Reports

variable (hreport : ∀ f, R (BuildM.report (env.stopping a) f) (BuildM.report (env.stopping b) f))

include hreport

theorem reportAll (findings : List Finding) :
    R (BuildM.reportAll (env.stopping a) findings) (BuildM.reportAll (env.stopping b) findings) :=
  u.forM findings hreport

theorem resolveFeatures (c : Configuration) :
    R (BuildM.resolveFeatures (env.stopping a) c)
      (BuildM.resolveFeatures (env.stopping b) c) := by
  refine u.store (fun _ _ => rfl) fun s => ?_
  refine u.bind (u.onStore (IgnoresFindings.ofTrees_features s.treeIds)
    (Store.KeepsFindings.stepwise.query _)) fun known => ?_
  refine u.bind (u.reportAll hreport _) fun _ => ite ?_ (u.pure _)
  refine u.bind (u.onStore (IgnoresFindings.pruneTrees _ s.treeIds)
    (Store.KeepsFindings.stepwise.pruneTrees (fun _ => Store.keepsFindings_free) _ s.treeIds))
      fun pruned => ?_
  exact u.bind (u.reportAll hreport pruned) fun _ => u.pure _

theorem resolveIdentities :
    R (BuildM.resolveIdentities (env.stopping a)) (BuildM.resolveIdentities (env.stopping b)) := by
  refine u.store (fun _ _ => rfl) fun s => ?_
  refine u.bind (u.onStore (IgnoresFindings.ofTrees_identities s.treeIds)
    (Store.KeepsFindings.stepwise.query _)) fun _ => ?_
  exact u.bind (u.reportAll hreport _) fun _ => u.pure _

/-- Everything that follows merging takes the same steps, when every report does. -/
theorem resolve (c : Configuration) :
    R (BuildM.resolve (env.stopping a) c) (BuildM.resolve (env.stopping b) c) := by
  refine u.bind (u.linkModules c.orphans) fun tables => ?_
  refine u.bind
    (u.onStore IgnoresFindings.applyAttributes Store.KeepsFindings.stepwise.applyAttributes)
      fun _ => ?_
  refine u.bind (u.resolveFeatures hreport c) fun _ => ?_
  exact u.bind (u.resolveIdentities hreport) fun _ => u.pure _

end Reports

end Uniform
end StatementForest
