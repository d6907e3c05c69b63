import StatementForest.Proofs.Build.CheckFaults
import StatementForest.Proofs.Store.InstantiateEffect

/-!
# Numbering the children of new statements

When a core statement is complete, its children are numbered.  An extension is completed without
this step, so its children never learn their positions, whatever they are.

While a statement is populated, its children wait for their positions, and each of them has
numbered its own children before the next one is made.  No check changes a position.

Main results:

- Theorem `SameOrders.noRemarkRelation`: no check changes a position.
- Theorem `BuildM.populate_orders`: after populating, the children of every new statement have the
  positions that they should have, by recursion on the element.
- Theorem `BuildM.process_orders`: so they have after processing a new statement, in the whole
  subtree.
- Theorem `BuildM.process_extension_numbers_none`: the children of an extension have none.
-/

namespace StatementForest

open Store

/-! ## Checks keep positions -/

/-- Two states whose statements have the same positions. -/
def SameOrders (a b : BuildState) : Prop := ∀ x, b.store.keptOrder x = a.store.keptOrder x

namespace SameOrders

variable {env : Environment}

/-- Steps that keep all positions keep them one after the other. -/
theorem composable : Composable SameOrders where
  refl _ _ := rfl
  trans h h' x := (h' x).trans (h x)

/-- A report keeps all positions. -/
theorem report (f : Finding) : Relates SameOrders (BuildM.report env f) := by
  intro state
  rcases hsev : state.log.severityOf f with _ | severity
  · rw [BuildM.report_apply_of_none hsev]
    exact composable.refl state
  rw [BuildM.report_apply_of_some hsev]
  exact fun x => keptOrder_attachFinding f x

/-- A change of a statement that keeps its position keeps all positions. -/
theorem update {f : Node → Node} (hf : ∀ n, (f n).order = n.order) (id : NodeId) :
    Relates SameOrders (BuildM.update id f) := by
  intro state x
  rw [BuildM.update, onStore_apply]
  rcases hn : state.store.get? id with _ | n
  · rw [StoreM.update, bind_apply_of_error (StoreM.node_apply_of_none hn)]
  · rw [StoreM.update_apply hn]
    exact keptOrder_update hf id x

/-- Looking up a statement keeps all positions. -/
theorem node (id : NodeId) : Relates SameOrders (BuildM.node id) := by
  intro state
  rw [BuildM.node, onStore_apply, StoreM.node, query_apply]
  exact composable.refl state

/-- A report about a statement keeps all positions. -/
theorem reportOn (id : NodeId) (kind : FindingKind) (message : String) :
    Relates SameOrders (BuildM.reportOn env id kind message) :=
  composable.bind (node id) fun _ => report _

/-- No check changes a position. -/
theorem noRemarkRelation : NoRemarkRelation env SameOrders where
  toComposable := composable
  blame id fault? _ := by
    cases fault? with
    | none => exact composable.pure ()
    | some fault => exact reportOn id fault.1 fault.2
  recordVersion id := by
    refine update (fun n => ?_) id
    unfold Node.recordVersion
    split <;> rfl

/-- Reporting missing children keeps all positions. -/
theorem reportMissing (id : NodeId) (c : Cardinalities) (e : Element) :
    Relates SameOrders (BuildM.reportMissing env id c e) :=
  composable.forM _ fun message _ => reportOn id _ message

/-- Reporting unexpected children keeps all positions. -/
theorem reportUnexpected (c : Cardinalities) (e : Element) :
    Relates SameOrders (BuildM.reportUnexpected env c e) :=
  composable.forM _ fun _ _ => report _

end SameOrders

/-! ## Positions of new statements -/

namespace Store

variable {s t u : Store} {id c x : NodeId} {e : Element} {r : Resolution} {root : RootId}

/-- Statements have been added.  Those that were there keep their positions, and all but one of
them their children.  The children of the others are numbered. -/
structure ChildrenNumbered (id : NodeId) (s t : Store) : Prop where
  ext : Extends s t
  keptOrder : ∀ x, s.contains x = true → t.keptOrder x = s.keptOrder x
  childrenOf : ∀ x, s.contains x = true → x ≠ id → t.childrenOf x = s.childrenOf x
  numbered : ∀ x, t.contains x = true → s.contains x = false → t.Numbered x

/-- With the same links and positions there is nothing new to be numbered. -/
theorem childrenNumbered_of_parallel (o : s.Owned) (hp : Parallel s t)
    (horder : ∀ x, t.keptOrder x = s.keptOrder x) : ChildrenNumbered id s t where
  ext := Extends.of_parallel o hp
  keptOrder x _ := horder x
  childrenOf x _ _ := hp.childrenOf x
  numbered x hx hnew := by
    rw [hp.contains, hnew] at hx
    cases hx

/-- First a statement gets children, then the same one does, or a new one whose children are
numbered at the end. -/
theorem ChildrenNumbered.trans (h : ChildrenNumbered id s t) (h' : ChildrenNumbered c t u)
    (hid : s.contains id = true)
    (hc : c = id ∨ s.contains c = false ∧ u.Numbered c) : ChildrenNumbered id s u where
  ext := h.ext.trans h'.ext
  keptOrder x hx := (h'.keptOrder x (h.ext.contains x hx)).trans (h.keptOrder x hx)
  childrenOf x hx hne := by
    have hxc : x ≠ c := by
      obtain rfl | ⟨hnew, -⟩ := hc
      · exact hne
      · exact ne_of_contains hx hnew
    exact (h'.childrenOf x (h.ext.contains x hx) hxc).trans (h.childrenOf x hx hne)
  numbered x hx hnew := by
    rcases hold : t.contains x with _ | _
    · exact h'.numbered x hx hold
    by_cases hxc : x = c
    · obtain rfl | ⟨-, hnumbered⟩ := hc
      · exact absurd hxc.symm (ne_of_contains hid hnew)
      · exact hxc ▸ hnumbered
    · refine (h.numbered x hold hnew).extend h.ext.owned h'.ext hold (h'.childrenOf x hold hxc) ?_
      exact fun d hd => h'.keptOrder d (h.ext.owned.wired.contains_child hd)

/-- As before, and the statement that gets children still waits for them to be numbered. -/
structure AwaitsNumbers (id : NodeId) (s t : Store) : Prop extends ChildrenNumbered id s t where
  unnumbered : ∀ c ∈ t.childrenOf id, t.keptOrder c = none

/-! ### One statement more -/

namespace Made

variable {parent : NodeId} {parent? : Option NodeId}

/-- The new statement has no position, whatever its parent is. -/
theorem get?_fresh (h : Made s t e r parent? root) :
    ∃ own, t.get? s.fresh = some { StoreM.freshNode e r own with parent := parent? } := by
  obtain ⟨own, -, hown⟩ := h.made
  exact ⟨own, hown⟩

/-- The new statement views its element and has no children. -/
theorem blank (h : Made s t e r parent? root) : t.Blank s.fresh e r.variant := by
  obtain ⟨own, hown⟩ := h.get?_fresh
  exact ⟨_, hown, rfl, rfl, rfl⟩

/-- The new statement has no position. -/
theorem keptOrder_fresh (h : Made s t e r parent? root) : t.keptOrder s.fresh = none := by
  obtain ⟨own, hown⟩ := h.get?_fresh
  exact keptOrder_of_get? hown

/-- The statements that were there keep their positions. -/
theorem keptOrder (h : Made s t e r parent? root) (hx : s.contains x = true) :
    t.keptOrder x = s.keptOrder x := by
  obtain ⟨n, hn⟩ := contains_iff.mp hx
  rw [keptOrder_of_get? (h.stayed x n hn), keptOrder_of_get? hn]

/-- A new statement has no children that could be numbered. -/
theorem childrenNumbered (h : Made s t e r (some parent) root) (hext : Extends s t) :
    ChildrenNumbered parent s t where
  ext := hext
  keptOrder _ hx := h.keptOrder hx
  childrenOf x hx hne := by rw [h.childrenOf hx, if_neg fun heq => hne (Option.some.inj heq).symm]
  numbered x hx hnew c hc := by
    rw [h.eq_fresh hx hnew, h.blank.childrenOf] at hc
    cases hc

end Made

namespace AwaitsNumbers

/-- A statement without children waits for none. -/
theorem refl (o : s.Owned) (h : s.childrenOf id = []) : AwaitsNumbers id s s where
  toChildrenNumbered := childrenNumbered_of_parallel o (Parallel.refl s) fun _ => rfl
  unnumbered c hc := by
    rw [h] at hc
    cases hc

/-- Checks number no child. -/
theorem of_parallel (h : AwaitsNumbers id s t) (hid : s.contains id = true) (hp : Parallel t u)
    (horder : ∀ x, u.keptOrder x = t.keptOrder x) : AwaitsNumbers id s u where
  toChildrenNumbered := h.trans (childrenNumbered_of_parallel h.ext.owned hp horder) hid (.inl rfl)
  unnumbered c hc := by
    rw [hp.childrenOf] at hc
    rw [horder, h.unnumbered c hc]

/-- A new child waits like the others. -/
theorem made (h : AwaitsNumbers id s t) (hid : s.contains id = true) (hext : Extends t u)
    (hm : Made t u e r (some id) root) : AwaitsNumbers id s u where
  toChildrenNumbered := h.trans (hm.childrenNumbered hext) hid (.inl rfl)
  unnumbered c hc := by
    rw [hm.childrenOf (h.ext.contains id hid), if_pos rfl] at hc
    obtain hc | hc := List.mem_append.mp hc
    · rw [hm.keptOrder (h.ext.owned.wired.contains_child hc), h.unnumbered c hc]
    · rw [List.mem_singleton.mp hc, hm.keptOrder_fresh]

/-- It also waits after its own children have been numbered. -/
theorem populated (h : AwaitsNumbers id s t) (hid : s.contains id = true)
    (hnew : s.contains c = false)
    (hc : ChildrenNumbered c t u) (hnumbered : u.Numbered c) : AwaitsNumbers id s u where
  toChildrenNumbered := h.trans hc hid (.inr ⟨hnew, hnumbered⟩)
  unnumbered d hd := by
    rw [hc.childrenOf id (h.ext.contains id hid) (ne_of_contains hid hnew)] at hd
    rw [hc.keptOrder d (h.ext.owned.wired.contains_child hd), h.unnumbered d hd]

/-- The wait is over when the children have the positions that they should have, and nothing else
has changed. -/
theorem complete (h : AwaitsNumbers id s t) (w : s.Wired) (hid : s.contains id = true)
    (hnone : s.childrenOf id = []) (hp : Parallel t u)
    (hself : ∀ c ∈ t.childrenOf id, u.keptOrder c = t.dueOrder id c)
    (hother : ∀ x, x ∉ t.childrenOf id → u.keptOrder x = t.keptOrder x) :
    ChildrenNumbered id s u ∧ u.Numbered id := by
  have ot := h.ext.owned
  have htu := Extends.of_parallel ot hp
  refine ⟨⟨h.ext.trans htu, fun x hx => ?_, fun x hx hne => ?_, fun x hx hnew => ?_⟩,
    fun c hc => ?_⟩
  · -- a child is no statement that was there before
    have hold : x ∉ t.childrenOf id := by
      intro hmem
      rw [h.ext.new_of_parentOf w hnone (ot.wired.parentOf_of_mem hmem)] at hx
      cases hx
    rw [hother x hold, h.keptOrder x hx]
  · rw [hp.childrenOf, h.childrenOf x hx hne]
  · rw [hp.contains] at hx
    refine (h.numbered x hx hnew).extend ot htu hx (hp.childrenOf x) fun c hc => ?_
    exact hother c fun hmem =>
      ne_of_contains hid hnew (ot.wired.eq_of_mem_of_mem hmem hc)
  · rw [hp.childrenOf] at hc
    rw [hself c hc]
    exact (dueOrder_congr (hp.faceOf id) (hp.childrenOf id) (fun x _ => hp.faceOf x) hc).symm

end AwaitsNumbers

/-- A statement keeps the element and the variant with which it was made. -/
theorem Blank.exists_get? {v : Variant} (h : s.Blank id e v) (hst : Extends s t) :
    ∃ n, t.get? id = some n ∧ n.element = e ∧ n.variant = v := by
  obtain ⟨m, hm, rfl, rfl, -⟩ := h
  obtain ⟨n, hn, hface⟩ := hst.exists_get? hm
  exact ⟨n, hn, congrArg (·.2.2) hface, congrArg (·.2.1) hface⟩

/-- What a core statement tells its children is their place. -/
theorem Blank.dueOrder_core {k : Keyword} (h : s.Blank id e (.core k)) (hst : Extends s t)
    (c : NodeId) : t.dueOrder id c = t.placeAmong (t.childrenOf id) c := by
  obtain ⟨n, hn, -, hk⟩ := h.exists_get? hst
  simp [dueOrder, hn, Node.isExtension, Node.keyword?, hk]

/-- An extension tells its children nothing. -/
theorem Blank.dueOrder_extension {supplier : Option Nat} {d : ExtensionClass}
    (h : s.Blank id e (.extension supplier d)) (hst : Extends s t) (c : NodeId) :
    t.dueOrder id c = none := by
  obtain ⟨n, hn, -, hd⟩ := h.exists_get? hst
  simp [dueOrder, hn, Node.isExtension, Node.keyword?, hd]

end Store

/-! ## Populating -/

namespace BuildM

variable {env : Environment} {state : BuildState} {id : NodeId} {e : Element} {s : Store}

/-- A check that touches no link and no position lets the children wait. -/
theorem awaitsNumbers_of_onlyReports {α : Type} {m : BuildM α} (h : AwaitsNumbers id s state.store)
    (hid : s.contains id = true) (hreports : OnlyReports env m state)
    (hsame : Relates SameOrders m) :
    ExtendsStore env m state fun _ t => AwaitsNumbers id s t := by
  refine (hreports.and (hsame.yields state)).imp ?_
  rintro _ t ⟨⟨ht, -⟩, horder⟩
  exact ⟨Extends.of_parallel h.ext.owned ht, h.of_parallel hid ht horder⟩

/-- A child element becomes a statement whose children are numbered and which waits for its own
position, given that this holds of the statements below it. -/
theorem extractChild_awaitsNumbers (h : AwaitsNumbers id s state.store) (hid : s.contains id = true)
    (hpopulate : ∀ (c : NodeId) (v : Variant) (t : BuildState), t.store.Owned →
      t.store.Blank c e v →
        ExtendsStore env (populate env c e v) t fun _ u => ChildrenNumbered c t.store u ∧
          u.Numbered c) :
    ExtendsStore env (extractChild env id e) state fun _ t => AwaitsNumbers id s t := by
  have ostate := h.ext.owned
  have hlive := h.ext.contains id hid
  refine ExtendsStore.extractChild (A := fun t => ∃ r root, Made state.store t e r (some id) root)
    ostate hlive ?_ ?_ ?_
  · intro f hf
    refine awaitsNumbers_of_onlyReports h hid (OnlyReports.report fun x hx => ?_)
      (SameOrders.report f)
    rw [hf] at hx
    cases hx
  · intro r root hr
    obtain ⟨t, hrun, ht⟩ := StoreM.instantiate_some_created ostate hlive hr root
    exact Yields.of_eq hrun ⟨r, root, ht⟩
  · intro n t hext ⟨r, root, hmade⟩ hn
    obtain ⟨m, hm, -, hvariant, -⟩ := hmade.blank
    obtain rfl := Option.some.inj (hn.symm.trans hm)
    rw [hvariant]
    have hnew : s.contains state.store.fresh = false := by
      by_contra hold
      rw [Bool.not_eq_false] at hold
      exact ne_fresh_of_contains (h.ext.contains _ hold) rfl
    refine (hpopulate _ _ t hext.owned hmade.blank).imp ?_
    intro _ u ⟨hext', hordered, hnumbered⟩
    exact ⟨hext', (h.made hid hext hmade).populated hid hnew hordered hnumbered⟩

/-- So do all child elements for which there is a step. -/
theorem runSteps_awaitsNumbers (h : AwaitsNumbers id s state.store) (hid : s.contains id = true)
    (name : String) {steps : List ChildStep}
    {extract : (child : Element) → .extract child ∈ steps → BuildM Unit}
    (hextract : ∀ child hstep (t : BuildState), AwaitsNumbers id s t.store →
      ExtendsStore env (extract child hstep) t fun _ u => AwaitsNumbers id s u) :
    ExtendsStore env (runSteps env id name steps extract) state fun _ t => AwaitsNumbers id s t :=
  ExtendsStore.runSteps h.ext.owned (h.ext.contains id hid) h name
    (fun child hstep t _ ht => hextract child hstep t ht)
    fun _ kind message _ ht => awaitsNumbers_of_onlyReports ht hid
      (OnlyReports.reportOn (ht.ext.contains id hid) kind message)
        (SameOrders.reportOn id kind message)

/-- Completing a core statement numbers its children. -/
theorem completeCore_orders {k : Keyword} (o : s.Owned) (hblank : s.Blank id e (.core k))
    (h : AwaitsNumbers id s state.store) (c : Cardinalities) :
    ExtendsStore env (completeCore env id k c e) state fun _ t =>
      ChildrenNumbered id s t ∧ t.Numbered id := by
  have hid := hblank.contains
  refine ExtendsStore.bind (awaitsNumbers_of_onlyReports h hid
    (OnlyReports.checkCoreArgument (h.ext.contains id hid) k)
    (SameOrders.noRemarkRelation.checkRelation.checkCoreArgument id k)) fun _ t _ ht => ?_
  refine ExtendsStore.bind (awaitsNumbers_of_onlyReports ht hid
    (OnlyReports.checkContent ht.ext.owned.wired (ht.ext.contains id hid) k)
    (SameOrders.noRemarkRelation.checkRelation.checkContent id k)) fun _ u _ hu => ?_
  refine ExtendsStore.bind (awaitsNumbers_of_onlyReports hu hid (OnlyReports.reportUnexpected c e)
    (SameOrders.reportUnexpected c e)) fun _ v _ hv => ?_
  apply ExtendsStore.onStore
  refine (StoreM.numberChildren_numbers hv.ext.owned.wired (hv.ext.contains id hid)).imp ?_
  intro _ w ⟨hp, hself, hother⟩
  refine ⟨Extends.of_parallel hv.ext.owned hp,
    hv.complete o.wired hid hblank.childrenOf hp (fun d hd => ?_) hother⟩
  rw [hself d hd, hv.unnumbered d hd, hblank.dueOrder_core hv.ext, Option.or_none]

/-- Completing an extension numbers no child. -/
theorem completeExtension_orders {supplier : Option Nat} {c : ExtensionClass} (o : s.Owned)
    (hblank : s.Blank id e (.extension supplier c)) (h : AwaitsNumbers id s state.store) :
    ExtendsStore env (completeExtension env id c) state fun _ t =>
      ChildrenNumbered id s t ∧ t.Numbered id := by
  have hid := hblank.contains
  have hreports : OnlyReports env (completeExtension env id c) state :=
    OnlyReports.completeExtension h.ext.owned.wired (h.ext.contains id hid) c
  refine (hreports.and ((SameOrders.noRemarkRelation.completeExtension id c).yields state)).imp ?_
  rintro _ t ⟨⟨hp, -⟩, horder⟩
  refine ⟨Extends.of_parallel h.ext.owned hp,
    h.complete o.wired hid hblank.childrenOf hp (fun d hd => ?_) fun x _ => horder x⟩
  rw [horder, h.unnumbered d hd, hblank.dueOrder_extension h.ext]

/-- After populating a new statement its children and those of all statements below it have the
positions that they should have. -/
theorem populate_orders (e : Element) (id : NodeId) (v : Variant) (state : BuildState)
    (o : state.store.Owned) (h : state.store.Blank id e v) :
    ExtendsStore env (populate env id e v) state fun _ t =>
      ChildrenNumbered id state.store t ∧ t.Numbered id := by
  have hid := h.contains
  have hstart := AwaitsNumbers.refl o h.childrenOf
  have hchild : ∀ child ∈ e.children, ∀ t : BuildState, AwaitsNumbers id state.store t.store →
      ExtendsStore env (Functor.discard (extractChild env id child)) t
        fun _ u => AwaitsNumbers id state.store u := by
    intro child hmem t ht
    have := Element.sizeOf_lt_of_mem_children hmem
    exact Yields.discard (P := fun u : BuildState => Extends t.store u.store ∧
      AwaitsNumbers id state.store u.store)
      (extractChild_awaitsNumbers ht hid fun c w u => populate_orders child c w u)
  cases v with
  | core k =>
    rw [populate_core]
    refine ExtendsStore.bind (runSteps_awaitsNumbers hstart hid _ fun child hstep =>
      hchild child (mem_of_extract_mem_grammarSteps hstep)) fun _ t _ ht => ?_
    refine ExtendsStore.bind (awaitsNumbers_of_onlyReports ht hid
      (OnlyReports.reportMissing (ht.ext.contains id hid) _ e)
      (SameOrders.reportMissing id _ e)) fun _ u _ hu => ?_
    refine ExtendsStore.bind (runSteps_awaitsNumbers hu hid _ fun child hstep =>
      hchild child (mem_of_extract_mem_extensionSteps hstep)) fun _ w _ hw => ?_
    exact completeCore_orders o h hw _
  | extension supplier c =>
    rw [populate_extension]
    refine ExtendsStore.bind (runSteps_awaitsNumbers hstart hid _ fun child hstep =>
      hchild child (mem_of_extract_mem_freeSteps hstep)) fun _ t _ ht => ?_
    exact completeExtension_orders o h ht
termination_by sizeOf e

/-- Processing a new statement numbers its children and all that is made below it. -/
theorem process_populates_orders (o : state.store.Owned) {v : Variant}
    (h : state.store.Blank id e v) :
    ExtendsStore env (process env id) state fun _ t => ChildrenNumbered id state.store t ∧
      t.Numbered id := by
  have hpopulate : ExtendsStore env (populate env id e v) state _ :=
    populate_orders e id v state o h
  obtain ⟨n, hn, rfl, rfl, -⟩ := h
  exact ExtendsStore.bind_of_eq (Reading.node_apply hn) hpopulate

/-- Processing a new statement never fails when nothing asks to stop.  Then every child of a core
statement in its subtree knows its position, if that has a meaning, and no other statement has
one. -/
theorem process_orders (hstop : env.stopAt = none) {parent? : Option NodeId} {root : RootId}
    (o : state.store.Owned)
    (hnew : StoreM.instantiate env.suppliers e parent? root state.store =
      (.ok (.created id), s)) :
    ∃ t, process env id { state with store := s } = (.ok (), t) ∧ t.store.keptOrder id = none ∧
      ∀ p c, t.store.Below id p → t.store.parentOf c = some p →
        t.store.keptOrder c = t.store.dueOrder p c := by
  have os : s.Owned :=
    (StoreM.instantiate_outcome o env.suppliers e parent? root).result hnew
  obtain ⟨rfl, r, -, hmade⟩ := StoreM.made_of_instantiate_eq o hnew
  have hprocess : ExtendsStore env (process env state.store.fresh) { state with store := s } _ :=
    process_populates_orders os hmade.blank
  rcases hrun : process env state.store.fresh { state with store := s } with ⟨f | _, t⟩
  · obtain ⟨hsome, -⟩ := Yields.failure hprocess hrun
    rw [hstop] at hsome
    cases hsome
  obtain ⟨hext, hordered, hnumbered⟩ := Yields.result hprocess hrun
  refine ⟨t, rfl, ?_, fun p c hp hc => ?_⟩
  · rw [hordered.keptOrder _ hmade.blank.contains, hmade.keptOrder_fresh]
  have hmem := hext.owned.wired.mem_of_parentOf hc
  obtain rfl | ⟨hlive, hfresh⟩ := hext.new_of_below os.wired hmade.blank.childrenOf hp
  · exact hnumbered c hmem
  · exact hordered.numbered p hlive hfresh c hmem

/-- In a leaf with two types and two strange children every child below has its due position. -/
theorem process_orders_crowdedLeaf :
    ∃ t, process { grammar := .standard, suppliers := {} } ⟨0⟩
        { store := (Store.alloc {} (StoreM.freshNode crowdedLeaf
          ⟨Key.core "leaf", .core .leaf⟩ ⟨0⟩)).2 } = (.ok (), t) ∧
      t.store.keptOrder ⟨0⟩ = none ∧ ∀ p c, t.store.Below ⟨0⟩ p → t.store.parentOf c = some p →
        t.store.keptOrder c = t.store.dueOrder p c :=
  have hresolve : Suppliers.resolveElement {} crowdedLeaf =
      .ok ⟨Key.core "leaf", .core .leaf⟩ := by rfl
  have hnew : StoreM.instantiate {} crowdedLeaf none ⟨0⟩ ({} : Store) = _ :=
    StoreM.instantiate_none_apply hresolve
  have hstart : ({} : BuildState).store.Owned := Owned.empty
  have henv : Environment.stopAt { grammar := .standard, suppliers := {} } = none := rfl
  process_orders henv hstart hnew

/-- The children of an extension are made like others, and are told nothing. -/
theorem process_extension_numbers_none (hstop : env.stopAt = none) (hg : env.grammar.Proper)
    {supplier : Option Nat} {d : ExtensionClass}
    (hmakes : env.suppliers.Makes e (.extension supplier d)) (o : state.store.Owned)
    (hblank : state.store.Blank id e (.extension supplier d)) :
    Succeeds (process env id) state fun _ t => t.store.Owned ∧
      (t.store.childrenOf id).map t.store.elementOf = (keptFreely e.children).map some ∧
      ∀ c ∈ t.store.childrenOf id, t.store.keptOrder c = none ∧
        ∃ n, t.store.get? c = some n ∧ env.suppliers.Makes n.element n.variant := by
  obtain ⟨_, t, hrun, hadds, helaborated⟩ :=
    (process_elaborates hstop o hmakes hblank).exists_result
  obtain ⟨hext, -, hnumbered⟩ := Yields.result (process_populates_orders o hblank) hrun
  obtain ⟨n, hn, helement, hvariant⟩ := hblank.exists_get? hext
  have hfollows := helaborated n hn
  rw [helement, hvariant] at hfollows
  refine Yields.of_eq hrun ⟨hext.owned, (hfollows.childrenAccounted hg).view, fun c hc => ⟨?_, ?_⟩⟩
  · rw [hnumbered c hc, hblank.dueOrder_extension hext]
  · have hparent := hext.owned.wired.parentOf_of_mem hc
    have hlive := contains_of_parentOf hparent
    obtain ⟨m, hm⟩ := contains_iff.mp hlive
    have hnew := hext.new_of_parentOf o.wired hblank.childrenOf hparent
    exact ⟨m, hm, (hadds.elaborated c hlive hnew m hm).variant⟩

/-- A type, and an extension around it. -/
def plainType : Element :=
  { name := "type", value := some "string", line := none, source := none,
    scope := { home := "m", bindings := Dictionary.ofList [("x", "vendor")] }, children := [] }

def markedType : Element :=
  { plainType with name := "x:mark", value := none, children := [plainType] }

/-- The type below the extension is the first one, and is not told so. -/
theorem process_leaves_markedType_unnumbered : ∃ s t c,
    StoreM.instantiate {} markedType none ⟨0⟩ ({} : Store) = (.ok (.created ⟨0⟩), s) ∧
      process { grammar := .standard, suppliers := {} } ⟨0⟩ { store := s } = (.ok (), t) ∧
      t.store.parentOf c = some ⟨0⟩ ∧ t.store.placeAmong (t.store.childrenOf ⟨0⟩) c = some 0 ∧
      t.store.keptOrder c = none := by
  have hmark : Suppliers.resolveElement {} markedType =
      .ok ⟨⟨"vendor", "mark"⟩, .extension none .generic⟩ := by rfl
  have htype : Suppliers.resolveElement {} plainType = .ok ⟨Key.core "type", .core .type⟩ := by rfl
  obtain ⟨s, hs, hmade⟩ := StoreM.instantiate_none_created (s := {}) hmark ⟨0⟩
  have os : s.Owned :=
    (StoreM.instantiate_outcome Owned.empty {} markedType none ⟨0⟩).result hs
  have hprocess : Succeeds (process { grammar := .standard, suppliers := {} } ⟨0⟩)
      { store := s } _ := process_extension_numbers_none rfl Grammar.proper_standard
    ⟨_, hmark, rfl⟩ os hmade.blank
  obtain ⟨_, t, hrun, ot, hview, hchildren⟩ := hprocess.exists_result
  obtain ⟨c, hc, helement⟩ : ∃ c, t.store.childrenOf ⟨0⟩ = [c] ∧
      t.store.elementOf c = some plainType := List.map_eq_singleton_iff.mp hview
  have hmem : c ∈ t.store.childrenOf ⟨0⟩ := by simp [hc]
  obtain ⟨horder, n, hn, r, hr, hvariant⟩ := hchildren c hmem
  have hplain : n.element = plainType := by
    rw [Store.elementOf, faceOf, hn] at helement
    exact Option.some.inj helement
  rw [hplain, htype] at hr
  have hmatters : n.orderMatters = true := by
    rw [Node.orderMatters, ← hvariant, ← Except.ok.inj hr]
    rfl
  refine ⟨s, t, c, hs, hrun, ot.wired.parentOf_of_mem hmem, ?_, horder⟩
  simp [placeAmong, hn, hmatters, hc, earlierTwins]

end BuildM

end StatementForest
