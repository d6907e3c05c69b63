import StatementForest.Proofs.Build.CheckFaults
import StatementForest.Proofs.Store.StableNumbers

/-!
# What building reports

A core statement is remarked upon for three reasons: a child is repeated, a child is missing, or
a child is not foreseen by the grammar.  Building reports other things besides, but none of these
could be taken for a remark.  So whatever looks like a remark in the log has been made about a
core statement of the store, for the element that the statement views and by the cardinalities of
its keyword.

No step is asked to succeed.  A relation between the states before and after is enough, as every
report is made by a step on its own.

Main results:

- Theorem `BuildState.ReportsRemarks.composable`: steps that say nothing wrong can be put together.
- Theorem `BuildM.reportsRemarks_report`: one report says nothing wrong.
- Theorem `BuildM.reportsRemarks_populate`: nor does populating a statement, by recursion on the
  element.
-/

namespace StatementForest

open Store

/-! ## Steps that say nothing wrong -/

/-- A statement that is made for an element takes the next slot, and is what the element stands
for. -/
theorem StoreM.face_of_instantiate_eq {s t : Store} {suppliers : Suppliers} {e : Element}
    {parent? : Option NodeId} {root : RootId} {r : Resolution} {made : Instantiation}
    (hr : suppliers.resolveElement e = .ok r)
    (h : instantiate suppliers e parent? root s = (.ok made, t)) :
    made = .created s.fresh ∧ t.faceOf s.fresh = some (r.key, r.variant, e) := by
  have hface : (s.alloc (freshNode e r root)).2.faceOf s.fresh = some (r.key, r.variant, e) := by
    rw [faceOf, get?_alloc_fresh]
    rfl
  rcases parent? with _ | parent
  · rw [instantiate_none_apply hr] at h
    cases h
    exact ⟨rfl, hface⟩
  · rw [instantiate_some_apply hr, bind_apply] at h
    have hkeeps := KeepsStatements.stepwise.addChild parent s.fresh none
      (s.alloc (freshNode e r root)).2
    rw [← appendChild] at hkeeps
    rcases hrun : appendChild parent s.fresh (s.alloc (freshNode e r root)).2 with ⟨_ | _, u⟩ <;>
      rw [hrun] at h hkeeps
    · cases h
    · cases h
      exact ⟨rfl, hkeeps _ _ hface⟩

namespace BuildState

variable {env : Environment} {a b c : BuildState} {f : Finding}

/-- A finding is a remark about a core statement. -/
def Remarked (state : BuildState) (env : Environment) (f : Finding) : Prop :=
  ∃ x key k e, state.store.faceOf x = some (key, .core k, e) ∧
    env.suppliers.Makes e (.core k) ∧ (env.grammar.below k).Remarks x e f

/-- Statements stay what they are.  The log grows by findings that it does not have yet, and what
looks like a remark there is one about a core statement. -/
structure ReportsRemarks (env : Environment) (a b : BuildState) : Prop where
  keepsStatements : a.store.KeepsStatements b.store
  log : FindingLog.Grows a.log b.log
  nodup : a.log.entries.Nodup → b.log.entries.Nodup
  said : ∀ f ∈ b.log.entries, f.LikeRemark → f ∈ a.log.entries ∨ b.Remarked env f

/-- A remark about a statement stays one while statements are kept. -/
theorem Remarked.mono (h : a.Remarked env f) (hkeeps : a.store.KeepsStatements b.store) :
    b.Remarked env f := by
  obtain ⟨x, key, k, e, hface, hrest⟩ := h
  exact ⟨x, key, k, e, hkeeps x _ hface, hrest⟩

/-- Steps that report nothing but remarks report nothing else one after the other. -/
theorem ReportsRemarks.composable (env : Environment) : Composable (ReportsRemarks env) where
  refl a := ⟨fun _ _ hface => hface, FindingLog.Grows.refl a.log, id, fun _ hf _ => .inl hf⟩
  trans {a b c} h h' := by
    refine ⟨fun x face hface => h'.keepsStatements x face (h.keepsStatements x face hface),
      h.log.trans h'.log, h'.nodup ∘ h.nodup, fun f hf hlike => ?_⟩
    obtain hf | hf := h'.said f hf hlike
    · exact (h.said f hf hlike).imp_right fun hremarked => hremarked.mono h'.keepsStatements
    · exact .inr hf

/-- As before, for steps about a statement of which it is known what it is. -/
def ReportsRemarksOf (env : Environment) (x : NodeId) (face : Key × Variant × Element)
    (a b : BuildState) :
    Prop :=
  a.store.faceOf x = some face → ReportsRemarks env a b

/-- The same holds of steps about one statement. -/
theorem ReportsRemarksOf.composable (env : Environment) (x : NodeId)
    (face : Key × Variant × Element) :
    Composable (ReportsRemarksOf env x face) where
  refl a _ := (ReportsRemarks.composable env).refl a
  trans h h' hface :=
    have hs := h hface
    (ReportsRemarks.composable env).trans hs (h' (hs.keepsStatements x face hface))

/-- A step that reports nothing but remarks does so whatever statement it is about. -/
theorem reportsRemarks_of_relates {α : Type} {m : BuildM α} (h : Relates (ReportsRemarks env) m)
    {x : NodeId}
    {face : Key × Variant × Element} : Relates (ReportsRemarksOf env x face) m := fun s _ => h s

end BuildState

namespace BuildM

open BuildState

variable {env : Environment} {state : BuildState} {id : NodeId} {e : Element} {f : Finding}

/-- A report of a remark about a core statement, or of something that looks like none. -/
theorem reportsRemarks_report (h : f.LikeRemark → state.Remarked env f) :
    ReportsRemarks env state (report env f state).2 := by
  rcases hsev : state.log.severityOf f with _ | severity
  · rw [report_apply_of_none hsev]
    exact (ReportsRemarks.composable env).refl state
  rw [report_apply_of_some hsev]
  have hkeeps : state.store.KeepsStatements (reported state f).store := by
    intro x face hface
    rw [reported, (OnlyReports.parallel_attachFinding state.store f).faceOf]
    exact hface
  refine ⟨hkeeps, state.log.grows_add f, FindingLog.nodup_add, fun g hg hlike => ?_⟩
  refine (state.log.mem_add hg).imp_right ?_
  rintro rfl
  exact (h hlike).mono hkeeps

/-- An operation of the store says nothing. -/
theorem reportsRemarks_onStore {α : Type} {m : StoreM α} (h : Relates KeepsStatements m) :
    Relates (ReportsRemarks env) (onStore m) := by
  intro state
  rw [onStore_apply]
  exact ⟨h state.store, FindingLog.Grows.refl _, id, fun _ hf _ => .inl hf⟩

/-- Looking up a statement reports nothing. -/
theorem reportsRemarks_node (id : NodeId) : Relates (ReportsRemarks env) (node id) :=
  reportsRemarks_onStore (KeepsStatements.stepwise.node id)

/-- Blaming a statement for what is no remark reports nothing that looks like one. -/
theorem reportsRemarks_blame (id : NodeId) {fault? : Option Fault}
    (h : ∀ fault, fault? = some fault → fault.NoRemark) :
    Relates (ReportsRemarks env) (blame env id fault?) := by
  rcases fault? with _ | fault
  · exact (ReportsRemarks.composable env).pure _
  rw [blame_some]
  refine (ReportsRemarks.composable env).bind (reportsRemarks_node id) fun n state =>
    reportsRemarks_report fun hlike => ?_
  exact absurd hlike (h fault rfl id _)

/-- Checks say nothing wrong. -/
theorem reportsRemarks_noRemark : NoRemarkRelation env (ReportsRemarks env) where
  toComposable := ReportsRemarks.composable env
  blame id _ h := reportsRemarks_blame id h
  recordVersion id := reportsRemarks_onStore (KeepsStatements.stepwise.recordVersion id)

/-- A remark about the statement of which it is known what it is. -/
theorem reportsRemarks_remark {key : Key} {k : Keyword} (hmakes : env.suppliers.Makes e (.core k))
    {kind : FindingKind} {message : String} (h : (env.grammar.below k).Remarks id e
      { subject := .statement id e.origin, kind, message }) :
    Relates (ReportsRemarksOf env id (key, .core k, e)) (reportOn env id kind message) := by
  intro state hface
  obtain ⟨n, hn, hnface⟩ := Option.map_eq_some_iff.mp hface
  rw [reportOn, bind_apply, Reading.node_apply hn]
  have helement : n.element = e := congrArg (·.2.2) hnface
  rw [← helement] at h
  exact reportsRemarks_report fun _ => ⟨id, key, k, e, hface, hmakes, helement ▸ h⟩

/-! ### Populating -/

/-- The steps for an extension pass over no child. -/
theorem not_repeated_mem_freeSteps (name : String) :
    .repeated name ∉ freeSteps e.children := by
  simp [freeSteps, extensionSteps]

/-- The steps for the children of a statement say nothing wrong when the single steps do. -/
theorem reportsRemarks_runSteps {R : BuildState → BuildState → Prop} (g : Composable R)
    {name : String}
    {steps : List ChildStep} {extract : (child : Element) → .extract child ∈ steps → BuildM Unit}
    (hextract : ∀ child hstep, Relates R (extract child hstep))
    (hrepeated : ∀ child, .repeated child ∈ steps →
      Relates R (reportOn env id .cardinalityViolation (repeatedMessage child name))) :
    Relates R (runSteps env id name steps extract) := by
  induction steps with
  | nil => exact g.pure _
  | cons step rest ih =>
    have hrest := ih (fun c h => hextract c (List.mem_cons_of_mem _ h))
      fun c h => hrepeated c (List.mem_cons_of_mem _ h)
    cases step with
    | extract child => exact g.bind (hextract child List.mem_cons_self) fun _ => hrest
    | «repeated» child => exact g.bind (hrepeated child List.mem_cons_self) fun _ => hrest

/-- Reporting missing children reports nothing but remarks. -/
theorem reportsRemarks_reportMissing {key : Key} {k : Keyword}
    (hmakes : env.suppliers.Makes e (.core k)) :
    Relates (ReportsRemarksOf env id (key, .core k, e))
      (reportMissing env id (env.grammar.below k) e) :=
  (ReportsRemarksOf.composable env id _).forM _ fun _ hmessage => reportsRemarks_remark hmakes
    (.missing hmessage)

/-- Reporting unexpected children reports nothing but remarks. -/
theorem reportsRemarks_reportUnexpected {key : Key} {k : Keyword}
    (hmakes : env.suppliers.Makes e (.core k)) :
    Relates (ReportsRemarksOf env id (key, .core k, e))
      (reportUnexpected env (env.grammar.below k) e) := by
  refine (ReportsRemarksOf.composable env id _).forM _ fun child hchild state hface => ?_
  exact reportsRemarks_report fun _ => ⟨id, key, k, e, hface, hmakes, .unexpected hchild⟩

/-- Completing a core statement reports nothing but remarks. -/
theorem reportsRemarks_completeCore {key : Key} {k : Keyword}
    (hmakes : env.suppliers.Makes e (.core k)) :
    Relates (ReportsRemarksOf env id (key, .core k, e))
      (completeCore env id k (env.grammar.below k) e) := by
  have g := ReportsRemarksOf.composable env id (key, .core k, e)
  refine g.bind
    (reportsRemarks_of_relates (reportsRemarks_noRemark.checkRelation.checkCoreArgument id k))
      fun _ => ?_
  refine g.bind
    (reportsRemarks_of_relates (reportsRemarks_noRemark.checkRelation.checkContent id k))
      fun _ => ?_
  refine g.bind (reportsRemarks_reportUnexpected hmakes) fun _ => ?_
  exact reportsRemarks_of_relates
    (reportsRemarks_onStore (KeepsStatements.stepwise.numberChildren id))

/-- A rejected element is reported, and a statement that is made for an element is populated. -/
theorem reportsRemarks_extractChild {parent : NodeId}
    (hpopulate : ∀ id key v, env.suppliers.Makes e v →
      Relates (ReportsRemarksOf env id (key, v, e)) (populate env id e v)) :
    Relates (ReportsRemarks env) (extractChild env parent e) := by
  have g := ReportsRemarks.composable env
  rw [extractChild]
  refine g.bind (reportsRemarks_node parent) fun p => ?_
  refine g.bind_of
    (reportsRemarks_onStore (KeepsStatements.stepwise.instantiate _ e (some parent) p.root)) ?_
  intro made a b hmade
  rw [onStore_apply, Prod.mk.injEq] at hmade
  obtain ⟨hresult, rfl⟩ := hmade
  obtain ⟨-, r, hr⟩ | ⟨-, f, hf, hrejects⟩ := env.suppliers.resolveElement_outcome e
  · obtain ⟨rfl, hface⟩ := StoreM.face_of_instantiate_eq hr (Prod.ext hresult rfl)
    obtain ⟨n, hn, hnface⟩ := Option.map_eq_some_iff.mp hface
    have hvariant : n.variant = r.variant := congrArg (·.2.1) hnface
    have g' := ReportsRemarksOf.composable env a.store.fresh (r.key, r.variant, e)
    dsimp only
    rw [bind_apply, @Reading.node_apply { a with store := _ } _ _ hn]
    dsimp only
    rw [hvariant]
    exact g'.bind (hpopulate _ r.key r.variant ⟨r, hr, rfl⟩) (fun _ => g'.pure _) _ hface
  · rw [StoreM.instantiate_of_error hf] at hresult
    cases hresult
    have hreport : Relates (ReportsRemarks env) (report env f) := fun _ =>
      reportsRemarks_report fun hlike => absurd hlike hrejects.not_likeRemark
    exact g.bind hreport (fun _ => g.pure _) _

/-- Populating a statement from the element that it views says nothing wrong. -/
theorem reportsRemarks_populate (e : Element) (id : NodeId) (key : Key) (v : Variant)
    (hmakes : env.suppliers.Makes e v) :
    Relates (ReportsRemarksOf env id (key, v, e)) (populate env id e v) := by
  have g := ReportsRemarksOf.composable env id (key, v, e)
  have hchild : ∀ child ∈ e.children,
      Relates (ReportsRemarks env) (Functor.discard (extractChild env id child)) := by
    intro child hmem
    have := Element.sizeOf_lt_of_mem_children hmem
    exact (ReportsRemarks.composable env).discard
      (reportsRemarks_extractChild fun c key v hv => reportsRemarks_populate child c key v hv)
  cases v with
  | core k =>
    rw [populate_core]
    refine g.bind (reportsRemarks_runSteps g (fun child hstep => reportsRemarks_of_relates
      (hchild child (mem_of_extract_mem_grammarSteps hstep))) fun name hstep =>
      reportsRemarks_remark hmakes (.repeated hstep)) fun _ => ?_
    refine g.bind (reportsRemarks_reportMissing hmakes) fun _ => ?_
    refine g.bind (reportsRemarks_runSteps g (fun child hstep => reportsRemarks_of_relates
      (hchild child (mem_of_extract_mem_extensionSteps hstep))) fun name hstep => ?_) fun _ => ?_
    · exact absurd (List.mem_append_right _ hstep) (not_repeated_mem_freeSteps name)
    · exact reportsRemarks_completeCore hmakes
  | extension supplier c =>
    rw [populate_extension]
    refine g.bind (reportsRemarks_runSteps g (fun child hstep => reportsRemarks_of_relates
      (hchild child (mem_of_extract_mem_freeSteps hstep))) fun name hstep => ?_) fun _ => ?_
    · exact absurd hstep (not_repeated_mem_freeSteps name)
    · exact reportsRemarks_of_relates (reportsRemarks_noRemark.completeExtension id c)
termination_by sizeOf e

/-- Processing a statement reports nothing but remarks. -/
theorem reportsRemarks_process {n : Node} (hn : state.store.get? id = some n)
    (hmakes : env.suppliers.Makes n.element n.variant) :
    ReportsRemarks env state (process env id state).2 := by
  rw [process, bind_apply, Reading.node_apply hn]
  refine reportsRemarks_populate n.element id n.key n.variant hmakes state ?_
  rw [faceOf, hn]
  rfl

end BuildM
end StatementForest
