import StatementForest.Build.Populate
import StatementForest.Proofs.Build.SiblingPositions

/-!
# Populating never goes wrong

Every check and every step of building reads statements that are live: the
statement itself, its parent and its children.  So a statement can be populated
from any element, and only a severity at which to stop ends this early.

Main results:

- Theorem `StoreM.sideChildren_apply`: a pass over children finds all of them.
- Theorem `OnlyReports.completeCore`, `OnlyReports.completeExtension`: the checks of a complete
  statement touch no link.
- Theorem `ExtendsStore.runSteps`, `ExtendsStore.extractChild`: the steps for children keep of
  the store what each of them keeps.
- Theorem `OnlyExtends.populate`, `OnlyExtends.extractChild`: a statement is populated, by
  recursion on the element that it views.
-/

namespace StatementForest

open Store

/-! ## Passes over children -/

namespace StoreM

variable {s : Store} {id : NodeId}

/-- A filter whose tests only read is a reading, too. -/
theorem filterM_apply {α : Type} {test : α → StoreM Bool} {items : List α}
    (h : ∀ a ∈ items, ∃ b, test a s = (.ok b, s)) :
    ∃ found, items.filterM test s = (.ok found, s) := by
  have haux : ∀ (items acc : List α), (∀ a ∈ items, ∃ b, test a s = (.ok b, s)) →
      ∃ found, List.filterAuxM test items acc s = (.ok found, s) := by
    intro items
    induction items with
    | nil => exact fun acc _ => ⟨acc, rfl⟩
    | cons a rest ih =>
      intro acc h
      obtain ⟨b, hb⟩ := h a List.mem_cons_self
      obtain ⟨found, hfound⟩ :=
        ih (cond b (a :: acc) acc) fun x hx => h x (List.mem_cons_of_mem _ hx)
      refine ⟨found, ?_⟩
      rw [List.filterAuxM, bind_apply, hb]
      exact hfound
  obtain ⟨found, hfound⟩ := haux items [] h
  refine ⟨found.reverse, ?_⟩
  rw [List.filterM, bind_apply, hfound]
  rfl

/-- The children that stand for one side of a relationship are found. -/
theorem sideChildren_apply (w : s.Wired) (hid : s.contains id = true) (side : String) :
    ∃ found, sideChildren id side s = (.ok found, s) := by
  obtain ⟨n, hn⟩ := contains_iff.mp hid
  rw [sideChildren, bind_apply, childrenOf_apply hn]
  refine filterM_apply fun c hc => ?_
  rw [← childrenOf_of_get? hn] at hc
  obtain ⟨m, hm⟩ := contains_iff.mp (w.contains_child hc)
  rw [bind_apply, node_apply hm]
  dsimp only
  split
  · refine ⟨!(s.childrenWithKey c (Catalogue.sideKey side)).isEmpty, ?_⟩
    rw [bind_apply, childrenWithKey_apply hm]
    rfl
  · exact ⟨false, rfl⟩

end StoreM

/-! ## Checks -/

namespace OnlyReports

variable {env : Environment} {state : BuildState} {id : NodeId}

theorem blame (hid : state.store.contains id = true) (fault? : Option Fault) :
    OnlyReports env (BuildM.blame env id fault?) state := by
  cases fault? with
  | none => exact pure
  | some fault => exact reportOn hid fault.1 fault.2

theorem checkCoreArgument (hid : state.store.contains id = true) (k : Keyword) :
    OnlyReports env (BuildM.checkCoreArgument env id k) state :=
  bind_node hid fun _ _ => blame hid _

theorem requireChild (hid : state.store.contains id = true) (child : Keyword)
    (kind : FindingKind) : OnlyReports env (BuildM.requireChild env id child kind) state := by
  apply bind_childrenOfKeyword hid
  split
  · exact bind_node hid fun _ _ => blame hid _
  · exact pure

theorem checkAmendments (fault? : Node → Option Fault) {children : List NodeId}
    (h : ∀ c ∈ children, state.store.contains c = true) :
    OnlyReports env (BuildM.checkAmendments env fault? children) state := by
  refine forM fun c hc t ht => ?_
  have hlive : t.store.contains c = true := by
    rw [ht.contains]
    exact h c hc
  exact bind_node hlive fun _ _ => blame hlive _

theorem checkDeviation (w : state.store.Wired) (hid : state.store.contains id = true) :
    OnlyReports env (BuildM.checkDeviation env id) state := by
  refine bind_node hid fun n hn => ?_
  have hchildren : ∀ c ∈ n.children, state.store.contains c = true := by
    intro c hc
    rw [← childrenOf_of_get? hn] at hc
    exact w.contains_child hc
  dsimp only
  split
  · exact checkAmendments _ hchildren
  split
  · split
    · exact blame hid _
    · split
      · exact pure
      · exact checkAmendments _ hchildren
  · exact pure

theorem checkContent (w : state.store.Wired) (hid : state.store.contains id = true)
    (k : Keyword) : OnlyReports env (BuildM.checkContent env id k) state := by
  unfold BuildM.checkContent
  split
  · exact checkDeviation w hid
  · exact requireChild hid .value .enumWithoutValue
  · exact requireChild hid .position .bitWithoutPosition
  · exact pure

theorem checkParent (w : state.store.Wired) (hid : state.store.contains id = true)
    (rule : ExtensionRule) : OnlyReports env (BuildM.checkParent env id rule) state := by
  refine bind_node hid fun n hn => ?_
  rcases hparent : n.parent with _ | parent
  · exact pure
  · exact bind_node (w.contains_of_parent hn hparent) fun _ _ => blame hid _

theorem checkRepetition (w : state.store.Wired) (hid : state.store.contains id = true)
    (rule : ExtensionRule) : OnlyReports env (BuildM.checkRepetition env id rule) state := by
  unfold BuildM.checkRepetition
  split
  · exact pure
  refine bind_node hid fun n hn => ?_
  rcases hparent : n.parent with _ | parent
  · exact pure
  · obtain ⟨p, hp⟩ := contains_iff.mp (w.contains_of_parent hn hparent)
    exact bind_of_eq (Reading.childrenWithKey_apply hp _) (blame hid _)

theorem checkRule (w : state.store.Wired) (hid : state.store.contains id = true)
    (rule : ExtensionRule) : OnlyReports env (BuildM.checkRule env id rule) state := by
  refine bind_node hid fun _ _ => ?_
  refine bind (blame hid _) fun _ t ht => ?_
  have hlive := (ht.contains id).trans hid
  refine bind (blame hlive _) fun _ u hu => ?_
  have hlive := (hu.contains id).trans hlive
  have w := (w.of_parallel ht).of_parallel hu
  refine bind (checkParent w hlive rule) fun _ v hv => ?_
  exact checkRepetition (w.of_parallel hv) ((hv.contains id).trans hlive) rule

/-- Keeping the numbers of a version touches no link. -/
theorem keepsLinks_recordVersion : Node.KeepsLinks Node.recordVersion := by
  refine ⟨?_, ?_, ?_, ?_⟩ <;>
  · intro n
    unfold Node.recordVersion
    split <;> rfl

theorem followUp (w : state.store.Wired) (hid : state.store.contains id = true)
    (f : FollowUp) : OnlyReports env (BuildM.followUp env id f) state := by
  cases f with
  | nothing => exact pure
  | expectType => exact bind_childrenOfKeyword hid (blame hid _)
  | expectSides =>
    refine forM fun side _ t ht => ?_
    have hlive := (ht.contains id).trans hid
    obtain ⟨found, hfound⟩ := StoreM.sideChildren_apply (w.of_parallel ht) hlive side
    refine bind_of_eq (a := found) ?_ (blame hlive _)
    rw [onStore_apply, hfound]
  | recordVersion => exact update hid keepsLinks_recordVersion

/-! ## Complete statements -/

theorem reportMissing (hid : state.store.contains id = true) (c : Cardinalities) (e : Element) :
    OnlyReports env (BuildM.reportMissing env id c e) state :=
  forM fun _ _ _ ht => reportOn ((ht.contains id).trans hid) _ _

theorem reportUnexpected (c : Cardinalities) (e : Element) :
    OnlyReports env (BuildM.reportUnexpected env c e) state :=
  forM fun _ _ _ _ => report fun _ hx => by cases hx

/-- Numbering children touches no link. -/
theorem numberChildren (w : state.store.Wired) (hid : state.store.contains id = true) :
    OnlyReports env (BuildM.onStore (StoreM.numberChildren id)) state :=
  onStore ((StoreM.numberChildren_numbers w hid).imp fun _ _ ht => ht.1)

theorem completeCore (w : state.store.Wired) (hid : state.store.contains id = true)
    (k : Keyword) (c : Cardinalities) (e : Element) :
    OnlyReports env (BuildM.completeCore env id k c e) state := by
  refine bind (checkCoreArgument hid k) fun _ t ht => ?_
  have hlive := (ht.contains id).trans hid
  have w := w.of_parallel ht
  refine bind (checkContent w hlive k) fun _ u hu => ?_
  have hlive := (hu.contains id).trans hlive
  refine bind (reportUnexpected c e) fun _ v hv => ?_
  exact numberChildren ((w.of_parallel hu).of_parallel hv) ((hv.contains id).trans hlive)

theorem completeExtension (w : state.store.Wired) (hid : state.store.contains id = true)
    (c : ExtensionClass) : OnlyReports env (BuildM.completeExtension env id c) state := by
  cases c with
  | generic => exact pure
  | ruled rule =>
    refine bind (checkRule w hid rule) fun _ t ht => ?_
    exact followUp (w.of_parallel ht) ((ht.contains id).trans hid) rule.followUp

end OnlyReports

/-! ## Steps for children -/

namespace ExtendsStore

variable {env : Environment} {state : BuildState} {id : NodeId} {I A : Store → Prop}

/-- The steps for the children of a live statement keep of the store what each child and each
finding about the statement keeps, from whatever store has come about. -/
theorem runSteps (o : state.store.Owned) (hid : state.store.contains id = true)
    (h : I state.store) (name : String) {steps : List ChildStep}
    {extract : (child : Element) → .extract child ∈ steps → BuildM Unit}
    (hextract : ∀ child hstep (t : BuildState), Extends state.store t.store → I t.store →
      ExtendsStore env (extract child hstep) t fun _ s => I s)
    (hrepeated : ∀ (t : BuildState) kind message, Extends state.store t.store → I t.store →
      ExtendsStore env (BuildM.reportOn env id kind message) t fun _ s => I s) :
    ExtendsStore env (BuildM.runSteps env id name steps extract) state fun _ s => I s := by
  induction steps generalizing state with
  | nil => exact pure o h
  | cons step rest ih =>
    have hrest : ∀ t : BuildState, Extends state.store t.store → I t.store →
        ExtendsStore env (BuildM.runSteps env id name rest fun c hc =>
          extract c (List.mem_cons_of_mem _ hc)) t fun _ s => I s := fun t ht hi =>
      ih ht.owned (ht.contains id hid) hi
        (fun c hc u hu => hextract c (List.mem_cons_of_mem _ hc) u (ht.trans hu))
        fun u kind message hu => hrepeated u kind message (ht.trans hu)
    cases step with
    | extract child =>
      exact bind (hextract child List.mem_cons_self state (Extends.refl o) h)
        fun _ t ht hi => hrest t ht hi
    | repeated child =>
      exact bind (hrepeated state _ _ (Extends.refl o) h) fun _ t ht hi => hrest t ht hi

/-- A child element becomes a populated statement below a live parent, or only a finding.  `A`
is what holds of the store with the new statement, before this is populated. -/
theorem extractChild {e : Element} {parent : NodeId} (o : state.store.Owned)
    (hparent : state.store.contains parent = true)
    (hreport : ∀ f, f.node? = none → ExtendsStore env (BuildM.report env f) state fun _ s => I s)
    (hmade : ∀ r root, env.suppliers.resolveElement e = .ok r →
      Succeeds (StoreM.instantiate env.suppliers e (some parent) root) state.store fun _ t => A t)
    (hpopulate : ∀ (n : Node) (t : BuildState), Extends state.store t.store → A t.store →
      t.store.get? state.store.fresh = some n →
        ExtendsStore env (BuildM.populate env state.store.fresh e n.variant) t fun _ s => I s) :
    ExtendsStore env (BuildM.extractChild env parent e) state fun _ s => I s := by
  rw [BuildM.extractChild]
  obtain ⟨p, hp⟩ := contains_iff.mp hparent
  refine bind_of_eq (Reading.node_apply hp) ?_
  rcases hr : env.suppliers.resolveElement e with finding | r
  · -- an element that is no statement is only reported
    refine bind_of_eq (a := .rejected finding) ?_ ?_
    · rw [onStore_apply, StoreM.instantiate_of_error hr]
    · exact bind (hreport finding (Suppliers.node?_of_resolveElement_eq_error hr))
        fun _ t ht hi => pure ht.owned hi
  · refine bind (Q := fun i t => i = .created state.store.fresh ∧
      t.contains state.store.fresh = true ∧ A t) ?_ ?_
    · apply onStore
      apply ((StoreM.instantiate_some_succeeds o hparent hr).and (hmade r p.root hr)).imp
      rintro i t ⟨⟨hi, ot, ht, -⟩, ha⟩
      exact ⟨Extends.of_fresh ot ht, hi, contains_of_parentOf ht.parentOf_self, ha⟩
    · rintro _ t ht ⟨rfl, hfresh, ha⟩
      obtain ⟨n, hn⟩ := contains_iff.mp hfresh
      refine bind_of_eq (Reading.node_apply hn) ?_
      exact bind (hpopulate n t ht ha hn) fun _ u hu hi => pure hu.owned hi

end ExtendsStore

/-! ## Populating -/

namespace OnlyExtends

variable {env : Environment} {state : BuildState} {id : NodeId}

/-- The steps for the children of a live statement, given that each child can be made
a statement from whatever store has come about. -/
theorem runSteps (o : state.store.Owned) (hid : state.store.contains id = true)
    (name : String) {steps : List ChildStep}
    {extract : (child : Element) → .extract child ∈ steps → BuildM Unit}
    (hextract : ∀ child h (t : BuildState), Extends state.store t.store →
      OnlyExtends env (extract child h) t) :
    OnlyExtends env (BuildM.runSteps env id name steps extract) state :=
  ExtendsStore.runSteps o hid trivial name (fun child h t ht _ => hextract child h t ht)
    fun _ _ _ ht _ => reportOn ht.owned (ht.contains id hid) _ _

/-- A child element becomes a populated statement below a live parent, given that
fresh statements can be populated from it. -/
theorem extractChild_of_populate {e : Element} {parent : NodeId}
    (hpopulate : ∀ (id : NodeId) (v : Variant) (t : BuildState), t.store.Owned →
      t.store.contains id = true → OnlyExtends env (BuildM.populate env id e v) t)
    (o : state.store.Owned) (hparent : state.store.contains parent = true) :
    OnlyExtends env (BuildM.extractChild env parent e) state := by
  refine ExtendsStore.extractChild (A := fun _ => True) o hparent (fun f _ => report o f) ?_ ?_
  · exact fun r root hr => (StoreM.instantiate_some_succeeds o hparent hr).imp fun _ _ _ => trivial
  · exact fun n t ht _ hn => hpopulate _ n.variant t ht.owned (contains_iff.mpr ⟨n, hn⟩)

/-- A live statement is populated from any element. -/
theorem populate (e : Element) (id : NodeId) (v : Variant) (state : BuildState)
    (o : state.store.Owned) (hid : state.store.contains id = true) :
    OnlyExtends env (BuildM.populate env id e v) state := by
  have hchild : ∀ child ∈ e.children, ∀ t : BuildState, Extends state.store t.store →
      OnlyExtends env (Functor.discard (BuildM.extractChild env id child)) t := by
    intro child hmem t ht
    have := Element.sizeOf_lt_of_mem_children hmem
    exact discard (extractChild_of_populate (fun c w u ou hc => populate child c w u ou hc)
      ht.owned (ht.contains id hid))
  cases v with
  | core k =>
    rw [BuildM.populate_core]
    refine bind (runSteps o hid _ fun child h t ht =>
      hchild child (mem_of_extract_mem_grammarSteps h) t ht) fun _ t ht => ?_
    have hlive := ht.contains id hid
    refine bind (of_onlyReports ht.owned (OnlyReports.reportMissing hlive _ e)) fun _ u hu => ?_
    have hlive := hu.contains id hlive
    refine bind (runSteps hu.owned hlive _ fun child h v hv =>
      hchild child (mem_of_extract_mem_extensionSteps h) v (ht.trans (hu.trans hv)))
      fun _ v hv => ?_
    exact of_onlyReports hv.owned (OnlyReports.completeCore hv.owned.wired
      (hv.contains id hlive) k _ e)
  | extension supplier c =>
    rw [BuildM.populate_extension]
    refine bind (runSteps o hid _ fun child h t ht =>
      hchild child (mem_of_extract_mem_freeSteps h) t ht) fun _ t ht => ?_
    exact of_onlyReports ht.owned (OnlyReports.completeExtension ht.owned.wired
      (ht.contains id hid) c)
termination_by sizeOf e

/-- A child element becomes a populated statement below a live parent. -/
theorem extractChild (e : Element) {parent : NodeId} (o : state.store.Owned)
    (hparent : state.store.contains parent = true) :
    OnlyExtends env (BuildM.extractChild env parent e) state :=
  extractChild_of_populate (populate e) o hparent

/-- Processing a live statement only extends the store. -/
theorem process (o : state.store.Owned) (hid : state.store.contains id = true) :
    OnlyExtends env (BuildM.process env id) state :=
  bind_node hid fun n _ => populate n.element id n.variant state o hid

end OnlyExtends
end StatementForest
