import StatementForest.Proofs.Build.ChildSelection
import StatementForest.Proofs.Build.DocumentTrees
import StatementForest.Proofs.Build.UniformRelations

/-!
# No child is lost

When nothing asks to stop, populating a statement gives it one child for each child of
its element that the grammar keeps, and records a finding for each of the others.  The
same holds of every statement below it.

Main results:

- Theorem `ExtractsChildren.trans`: what two runs of steps extract, and what they record.
- Theorem `BuildM.extractChild_extractsChildren`: a child becomes one statement, or a finding.
- Theorem `BuildM.populate_elaborates`: after populating, statements follow their elements,
  by recursion on the element.
- Theorem `BuildM.process_accounts`: so does processing a new statement, for the whole
  subtree.

Current gaps:

- Nothing asks to stop.  A run that stops is a part of such a run by `StopsShort.uniform`.
-/

namespace StatementForest

open Store ChildStep

/-! ## Recorded findings -/

namespace FindingLog

variable {log log' : FindingLog} {f : Finding}

/-- A finding is in the log, unless the policy suppresses its kind. -/
def Records (log : FindingLog) (f : Finding) : Prop :=
  log.policy.suppresses f.kind = false → f ∈ log.entries

/-- What a log records a longer log records, too. -/
theorem Grows.records (h : Grows log log') (hf : log.Records f) : log'.Records f := by
  intro hshown
  rw [h.policy] at hshown
  exact h.entries.subset (hf hshown)

/-- A finding that is added is recorded, unless it is suppressed. -/
theorem records_add (log : FindingLog) (f : Finding) : (log.add f).1.Records f := by
  intro hshown
  rw [policy_add] at hshown
  rw [add, hshown, Bool.false_or]
  split
  · next hmem => exact of_decide_eq_true hmem
  · exact List.mem_append_right _ List.mem_cons_self

end FindingLog

/-- The finding about a child with the name of an earlier one. -/
def repeatedFinding (x : NodeId) (e : Element) (name : String) : Finding where
  subject := .statement x e.origin
  kind := .cardinalityViolation
  message := repeatedMessage name e.name

/-- A finding about what an element lacks. -/
def missingFinding (x : NodeId) (e : Element) (message : String) : Finding where
  subject := .statement x e.origin
  kind := .missingRequiredChild
  message := message

/-- The finding about a child of a name that the grammar does not foresee. -/
def unexpectedFinding (e child : Element) : Finding where
  subject := .element child.origin
  kind := (unexpectedFault child.name e.name).1
  message := (unexpectedFault child.name e.name).2

/-! ## Accounts -/

/-- The variant of the statements that view an element. -/
def Suppliers.Makes (s : Suppliers) (e : Element) (v : Variant) : Prop :=
  ∃ r, s.resolveElement e = .ok r ∧ r.variant = v

/-- The findings that account for a child of a core element without a statement. -/
inductive Cardinalities.AccountsForChild (c : Cardinalities) (x : NodeId) (e child : Element) :
    Finding → Prop where
  | rejected {f : Finding} (h : child.Rejects f) : c.AccountsForChild x e child f
  | repeated (hname : (c.mandatorySingleton ++ c.optionalSingleton).contains child.name = true)
      (hcount : 2 ≤ e.children.countP (·.name == child.name)) :
      c.AccountsForChild x e child (repeatedFinding x e child.name)
  | unexpected {first : Element} (hname : child.isQualified = false)
      (hallows : c.allows child.name = false)
      (hfirst : e.children.find? (·.name == child.name) = some first) :
      c.AccountsForChild x e child (unexpectedFinding e first)

/-- What is remarked about a core statement that views an element: children that are repeated,
children that are missing, and children that the grammar does not foresee. -/
inductive Cardinalities.Remarks (c : Cardinalities) (x : NodeId) (e : Element) :
    Finding → Prop where
  | repeated {name : String} (h : .repeated name ∈ grammarSteps c e.children) :
      c.Remarks x e (repeatedFinding x e name)
  | missing {message : String} (h : message ∈ missingMessages c e) :
      c.Remarks x e (missingFinding x e message)
  | unexpected {child : Element} (h : child ∈ unexpectedChildren c [] e.children) :
      c.Remarks x e (unexpectedFinding e child)

namespace BuildState

variable {a b : BuildState} {g : Grammar} {x : NodeId}

/-- The children of a statement view the elements that are kept, one each and in this
order, and a recorded finding accounts for every other child element. -/
structure ChildrenAccounted (state : BuildState) (x : NodeId) (children kept : List Element)
    (accountsForChild : Element → Finding → Prop) : Prop where
  view : (state.store.childrenOf x).map state.store.elementOf = kept.map some
  rest : ∃ rest, children.Perm (kept ++ rest) ∧
    ∀ child ∈ rest, ∃ f, accountsForChild child f ∧ state.log.Records f

/-- All children of an element are accounted for, as the variant of its statement asks. -/
def AccountsForAll (state : BuildState) (g : Grammar) (x : NodeId) (e : Element) : Variant → Prop
  | .core k => state.ChildrenAccounted x e.children ((g.below k).kept e.children)
      ((g.below k).AccountsForChild x e)
  | .extension _ _ => state.ChildrenAccounted x e.children (keptFreely e.children) Element.Rejects

/-- A statement is what an element stands for, and its children view children of the
element.  With a proper grammar all of these are accounted for.  What is remarked about the
statement is recorded. -/
structure FollowsElement (state : BuildState) (env : Environment) (x : NodeId) (e : Element)
    (v : Variant) : Prop where
  variant : env.suppliers.Makes e v
  children : ∀ c ∈ state.store.childrenOf x, ∃ child ∈ e.children,
    state.store.elementOf c = some child
  childrenAccounted : env.grammar.Proper → state.AccountsForAll env.grammar x e v
  remarks : ∀ k, v = .core k → ∀ f, (env.grammar.below k).Remarks x e f → state.log.Records f

/-- A statement follows the element that it views. -/
def Elaborated (state : BuildState) (env : Environment) (x : NodeId) : Prop :=
  ∀ n, state.store.get? x = some n → state.FollowsElement env x n.element n.variant

/-- Children stay accounted for while their statement keeps them and the log grows. -/
theorem ChildrenAccounted.mono {children kept : List Element}
    {accountsForChild : Element → Finding → Prop}
    (h : a.ChildrenAccounted x children kept accountsForChild)
    (hchildren : b.store.childrenOf x = a.store.childrenOf x)
    (helement : ∀ c ∈ a.store.childrenOf x, b.store.elementOf c = a.store.elementOf c)
    (hlog : FindingLog.Grows a.log b.log) :
    b.ChildrenAccounted x children kept accountsForChild where
  view := by rw [hchildren, List.map_congr_left helement, h.view]
  rest := by
    obtain ⟨rest, hperm, hrest⟩ := h.rest
    refine ⟨rest, hperm, fun child hchild => ?_⟩
    obtain ⟨f, hexcuse, hrecords⟩ := hrest child hchild
    exact ⟨f, hexcuse, hlog.records hrecords⟩

/-- All children stay accounted for while their statement keeps them and the log grows. -/
theorem AccountsForAll.mono {e : Element} {v : Variant} (h : a.AccountsForAll g x e v)
    (hchildren : b.store.childrenOf x = a.store.childrenOf x)
    (helement : ∀ c ∈ a.store.childrenOf x, b.store.elementOf c = a.store.elementOf c)
    (hlog : FindingLog.Grows a.log b.log) : b.AccountsForAll g x e v := by
  cases v with
  | core k => exact ChildrenAccounted.mono h hchildren helement hlog
  | extension _ _ => exact ChildrenAccounted.mono h hchildren helement hlog

/-- A statement follows its element as long as it keeps its children and the log grows. -/
theorem FollowsElement.mono {env : Environment} {e : Element} {v : Variant}
    (h : a.FollowsElement env x e v)
    (hchildren : b.store.childrenOf x = a.store.childrenOf x)
    (helement : ∀ c ∈ a.store.childrenOf x, b.store.elementOf c = a.store.elementOf c)
    (hlog : FindingLog.Grows a.log b.log) : b.FollowsElement env x e v where
  variant := h.variant
  children c hc := by
    rw [hchildren] at hc
    rw [helement c hc]
    exact h.children c hc
  childrenAccounted hg := (h.childrenAccounted hg).mono hchildren helement hlog
  remarks k hk f hf := hlog.records (h.remarks k hk f hf)

end BuildState

/-- A statement views the element that it holds. -/
theorem Store.elementOf_of_get? {s : Store} {x : NodeId} {n : Node} (h : s.get? x = some n) :
    s.elementOf x = some n.element := by
  rw [elementOf, faceOf, h]
  rfl

/-- What views an element is live. -/
theorem Store.contains_of_elementOf {s : Store} {x : NodeId} {e : Element}
    (h : s.elementOf x = some e) : s.contains x = true := by
  rw [elementOf, faceOf, Option.map_map, Option.map_eq_some_iff] at h
  obtain ⟨n, hn, -⟩ := h
  exact contains_iff.mpr ⟨n, hn⟩

/-- In an extended store a statement views the same element. -/
theorem Store.Extends.elementOf {s t : Store} (h : Extends s t) {x : NodeId}
    (hx : s.contains x = true) : t.elementOf x = s.elementOf x := by
  rw [Store.elementOf, h.faceOf x hx, Store.elementOf]

/-- In an extended store some statements view the same elements. -/
theorem Store.Extends.map_elementOf {s t : Store} (h : Extends s t) {items : List NodeId}
    (hlive : ∀ c ∈ items, s.contains c = true) :
    items.map t.elementOf = items.map s.elementOf :=
  List.map_congr_left fun c hc => h.elementOf (hlive c hc)

namespace BuildState

variable {a b : BuildState} {env : Environment} {x : NodeId}

/-- What is elaborated stays so while the children stay. -/
theorem Elaborated.mono (h : a.Elaborated env x) (o : a.store.Owned)
    (hx : a.store.contains x = true)
    (hext : Extends a.store b.store)
    (hchildren : b.store.childrenOf x = a.store.childrenOf x)
    (hlog : FindingLog.Grows a.log b.log) : b.Elaborated env x := by
  intro m hm
  obtain ⟨n, hn⟩ := contains_iff.mp hx
  obtain ⟨m', hm', hface⟩ := hext.exists_get? hn
  rw [hm] at hm'
  cases hm'
  obtain ⟨-, hvariant, helement⟩ : m.key = n.key ∧ m.variant = n.variant ∧
      m.element = n.element := by
    rwa [Node.face, Node.face, Prod.mk.injEq, Prod.mk.injEq] at hface
  have hsame : ∀ c ∈ a.store.childrenOf x, b.store.elementOf c = a.store.elementOf c :=
    fun c hc => hext.elementOf (o.wired.contains_child hc)
  rw [hvariant, helement]
  exact (h n hn).mono hchildren hsame hlog

/-- Statements are only added, and what is added is elaborated.  Only one of the statements
that were there gets children. -/
structure AddsElaborated (env : Environment) (id : NodeId) (a b : BuildState) : Prop where
  ext : Extends a.store b.store
  log : FindingLog.Grows a.log b.log
  anchored : a.Anchored → b.Anchored
  childrenOf : ∀ x, a.store.contains x = true → x ≠ id →
    b.store.childrenOf x = a.store.childrenOf x
  elaborated : ∀ x, b.store.contains x = true → a.store.contains x = false → b.Elaborated env x

theorem AddsElaborated.trans {c : BuildState} {id : NodeId} (h : AddsElaborated env id a b)
    (h' : AddsElaborated env id b c) (hid : a.store.contains id = true) :
    AddsElaborated env id a c where
  ext := h.ext.trans h'.ext
  log := h.log.trans h'.log
  anchored := h'.anchored ∘ h.anchored
  childrenOf x hx hne :=
    (h'.childrenOf x (h.ext.contains x hx) hne).trans (h.childrenOf x hx hne)
  elaborated x hx hnew := by
    rcases hb : b.store.contains x with _ | _
    · exact h'.elaborated x hx hb
    · have hne : x ≠ id := (ne_of_contains hid hnew).symm
      exact (h.elaborated x hb hnew).mono h.ext.owned hb h'.ext (h'.childrenOf x hb hne) h'.log

end BuildState

open BuildState

/-! ## Recording -/

/-- A step has touched no link, and has recorded some findings. -/
structure RecordsFindings (findings : List Finding) (a b : BuildState) : Prop where
  parallel : Parallel a.store b.store
  log : FindingLog.Grows a.log b.log
  anchored : a.Anchored → b.Anchored
  records : ∀ f ∈ findings, b.log.Records f

namespace RecordsFindings

variable {a b c : BuildState} {findings findings' : List Finding}

theorem trans (h : RecordsFindings findings a b) (h' : RecordsFindings findings' b c) :
    RecordsFindings (findings ++ findings') a c where
  parallel := h.parallel.trans h'.parallel
  log := h.log.trans h'.log
  anchored := h'.anchored ∘ h.anchored
  records f hf := by
    obtain hf | hf := List.mem_append.mp hf
    · exact h'.log.records (h.records f hf)
    · exact h'.records f hf

theorem refl (a : BuildState) : RecordsFindings [] a a :=
  ⟨Parallel.refl _, FindingLog.Grows.refl _, id, fun _ hf => absurd hf List.not_mem_nil⟩

/-- A step that only records findings adds nothing that is not elaborated. -/
theorem addsElaborated (h : RecordsFindings findings a b) (o : a.store.Owned) (env : Environment)
    (id : NodeId) : AddsElaborated env id a b where
  ext := Extends.of_parallel o h.parallel
  log := h.log
  anchored := h.anchored
  childrenOf x _ _ := h.parallel.childrenOf x
  elaborated x hx hnew := by
    rw [h.parallel.contains, hnew] at hx
    cases hx

end RecordsFindings

namespace BuildM

variable {env : Environment} {state : BuildState} {id : NodeId} {e : Element}

/-- A step that touches no link succeeds when nothing asks to stop. -/
theorem onlyReports_recordsFindings {α : Type} (hstop : env.stopAt = none) {m : BuildM α}
    (h : OnlyReports env m state) : Succeeds m state fun _ t => RecordsFindings [] state t := by
  refine Yields.mono h (fun _ t ht =>
    ⟨ht.1, ht.2.1, ht.2.2, fun f hf => absurd hf List.not_mem_nil⟩) ?_
  rintro _ _ ⟨hsome, _⟩
  rw [hstop] at hsome
  cases hsome

/-- A report records its finding. -/
theorem report_recordsFindings (hstop : env.stopAt = none) {f : Finding}
    (hf : ∀ x, f.node? = some x → state.store.contains x = true) :
    Succeeds (report env f) state fun _ t => RecordsFindings [f] state t := by
  have hreports : OnlyReports env (report env f) state := OnlyReports.report hf
  unfold Succeeds Yields
  unfold OnlyReports Yields at hreports
  rcases hsev : state.log.severityOf f with _ | severity
  · rw [report_apply_of_none hsev] at hreports ⊢
    refine ⟨hreports.1, hreports.2.1, hreports.2.2, fun f' hf' hshown => ?_⟩
    rw [List.mem_singleton.mp hf', SeverityPolicy.suppresses] at hshown
    rw [FindingLog.severityOf] at hsev
    rw [hsev] at hshown
    cases hshown
  · rw [report_apply_of_some hsev, hstop] at hreports ⊢
    refine ⟨hreports.1, hreports.2.1, hreports.2.2, fun f' hf' => ?_⟩
    rw [List.mem_singleton.mp hf']
    exact state.log.records_add f

/-- A report about a statement records one finding about it. -/
theorem reportOn_recordsFindings (hstop : env.stopAt = none)
    (hid : state.store.elementOf id = some e)
    (kind : FindingKind) (message : String) :
    Succeeds (reportOn env id kind message) state fun _ t =>
      RecordsFindings [{ subject := .statement id e.origin, kind, message }] state t := by
  rw [Store.elementOf, Store.faceOf, Option.map_map, Option.map_eq_some_iff] at hid
  obtain ⟨n, hn, rfl⟩ := hid
  refine Yields.bind_of_eq (Reading.node_apply hn) (report_recordsFindings hstop fun _ hx => ?_)
  cases hx
  exact contains_iff.mpr ⟨n, hn⟩

/-- A loop records what its rounds record. -/
theorem forM_recordsFindings {α : Type} {f : α → BuildM PUnit} {finding : α → Finding}
    {items : List α}
    (h : ∀ item ∈ items, ∀ t : BuildState, Parallel state.store t.store →
      Succeeds (f item) t fun _ u => RecordsFindings [finding item] t u) :
    Succeeds (items.forM f) state fun _ t => RecordsFindings (items.map finding) state t := by
  induction items generalizing state with
  | nil => exact Yields.pure (RecordsFindings.refl state)
  | cons item rest ih =>
    change Succeeds (f item >>= fun _ => rest.forM f) state _
    refine Yields.bind (h item List.mem_cons_self state (Parallel.refl _)) fun _ t ht => ?_
    refine (ih fun x hx u hu => ?_).imp fun _ u hu => ht.trans hu
    exact h x (List.mem_cons_of_mem _ hx) u (ht.parallel.trans hu)

/-- Checking a core statement records the children that the grammar does not foresee. -/
theorem completeCore_recordsFindings (hstop : env.stopAt = none) (w : state.store.Wired)
    (hid : state.store.contains id = true) (k : Keyword) (c : Cardinalities) (e : Element) :
    Succeeds (completeCore env id k c e) state fun _ t =>
      RecordsFindings ((unexpectedChildren c [] e.children).map (unexpectedFinding e)) state t := by
  refine Yields.bind (onlyReports_recordsFindings hstop (OnlyReports.checkCoreArgument hid k))
    fun _ t ht => ?_
  have hlive := (ht.parallel.contains id).trans hid
  have w := w.of_parallel ht.parallel
  refine Yields.bind (onlyReports_recordsFindings hstop (OnlyReports.checkContent w hlive k))
    fun _ u hu => ?_
  have hlive := (hu.parallel.contains id).trans hlive
  have w := w.of_parallel hu.parallel
  have hunexpected : Succeeds (reportUnexpected env c e) u fun _ v =>
      RecordsFindings ((unexpectedChildren c [] e.children).map (unexpectedFinding e)) u v :=
    forM_recordsFindings fun child _ v _ => report_recordsFindings hstop fun _ hx => by cases hx
  refine Yields.bind hunexpected fun _ v hv => ?_
  have hlive := (hv.parallel.contains id).trans hlive
  have w := w.of_parallel hv.parallel
  refine (onlyReports_recordsFindings hstop (OnlyReports.numberChildren w hlive)).imp
    fun _ x hx => ?_
  have hall := (ht.trans hu).trans (hv.trans hx)
  rwa [List.append_nil, List.nil_append, List.append_nil] at hall

end BuildM

/-! ## Steps for children -/

/-- The steps for some children of a statement have been carried out. -/
structure ExtractsChildren (env : Environment) (id : NodeId) (e : Element) (steps : List ChildStep)
    (a b : BuildState) : Prop where
  addsElaborated : AddsElaborated env id a b
  view : (b.store.childrenOf id).map b.store.elementOf =
    (a.store.childrenOf id).map a.store.elementOf ++
      ((extracted steps).filter (·.isStatement)).map some
  rejects : ∀ child, .extract child ∈ steps → child.isStatement = false →
    ∃ f, child.Rejects f ∧ b.log.Records f
  repeats : ∀ name, .repeated name ∈ steps → b.log.Records (repeatedFinding id e name)

namespace ExtractsChildren

variable {env : Environment} {id : NodeId} {e : Element} {steps steps' : List ChildStep}
  {a b c : BuildState} {findings : List Finding}

/-- What is recorded besides does not count. -/
theorem of_recordsFindings (h : RecordsFindings findings a b) (o : a.store.Owned) :
    ExtractsChildren env id e [] a b where
  addsElaborated := h.addsElaborated o env id
  view := by
    have hmap : (a.store.childrenOf id).map b.store.elementOf =
        (a.store.childrenOf id).map a.store.elementOf :=
      (Extends.of_parallel o h.parallel).map_elementOf fun c hc => o.wired.contains_child hc
    rw [h.parallel.childrenOf, hmap]
    exact (List.append_nil _).symm
  rejects _ hstep := absurd hstep List.not_mem_nil
  repeats _ hstep := absurd hstep List.not_mem_nil

theorem refl (o : a.store.Owned) : ExtractsChildren env id e [] a a :=
  of_recordsFindings (RecordsFindings.refl a) o

/-- Steps that repeat a name are recorded, and do nothing else. -/
theorem of_repeated {name : String} (h : RecordsFindings [repeatedFinding id e name] a b)
    (o : a.store.Owned) : ExtractsChildren env id e [.repeated name] a b where
  addsElaborated := h.addsElaborated o env id
  view := (of_recordsFindings h o : ExtractsChildren env id e [] a b).view
  rejects _ hstep := by
    cases List.mem_singleton.mp hstep
  repeats name' hstep := by
    cases List.mem_singleton.mp hstep
    exact h.records _ List.mem_cons_self

/-- Two runs of steps do what all the steps do. -/
theorem trans (h : ExtractsChildren env id e steps a b) (h' : ExtractsChildren env id e steps' b c)
    (hid : a.store.contains id = true) : ExtractsChildren env id e (steps ++ steps') a c where
  addsElaborated := h.addsElaborated.trans h'.addsElaborated hid
  view := by
    rw [h'.view, h.view, extracted_append, List.filter_append, List.map_append,
      List.append_assoc]
  rejects child hstep hnot := by
    obtain hstep | hstep := List.mem_append.mp hstep
    · obtain ⟨f, hrejects, hf⟩ := h.rejects child hstep hnot
      exact ⟨f, hrejects, h'.addsElaborated.log.records hf⟩
    · exact h'.rejects child hstep hnot
  repeats name hstep := by
    obtain hstep | hstep := List.mem_append.mp hstep
    · exact h'.addsElaborated.log.records (h.repeats name hstep)
    · exact h'.repeats name hstep

/-- A new statement has been put below another one, and has been populated. -/
theorem of_child {child : Element} {r : Resolution} {root : RootId} (o : a.store.Owned)
    (hid : a.store.contains id = true) (hstatement : child.isStatement = true)
    (ob : b.store.Owned)
    (hlink : Relinked (a.store.alloc (StoreM.freshNode child r root)).2 b.store a.store.fresh
      (some id))
    (hself : b.store.childrenOf id = a.store.childrenOf id ++ [a.store.fresh])
    (hother : ∀ x, x ≠ id → b.store.childrenOf x = a.store.childrenOf x)
    (hlog : b.log = a.log) (h : AddsElaborated env a.store.fresh b c)
    (helaborated : c.Elaborated env a.store.fresh) :
    ExtractsChildren env id e [.extract child] a c where
  addsElaborated := {
    ext := (Extends.of_fresh ob hlink).trans h.ext
    log := hlog ▸ h.log
    anchored := fun hanchored => by
      refine h.anchored fun f hf x hx => ?_
      rw [hlog] at hf
      exact (Extends.of_fresh ob hlink).contains x (hanchored f hf x hx)
    childrenOf := fun x hx hne => by
      have hx' := (Extends.of_fresh ob hlink).contains x hx
      exact (h.childrenOf x hx' (ne_fresh_of_contains hx)).trans (hother x hne)
    elaborated := fun x hx hnew => by
      by_cases hfresh : x = a.store.fresh
      · rw [hfresh]
        exact helaborated
      · refine h.elaborated x hx ?_
        rw [hlink.contains, Store.contains, get?_alloc_of_ne _ _ hfresh]
        exact hnew }
  view := by
    have hext := Extends.of_fresh ob hlink
    have hid' := hext.contains id hid
    have hold : (a.store.childrenOf id).map c.store.elementOf =
        (a.store.childrenOf id).map a.store.elementOf :=
      (hext.trans h.ext).map_elementOf fun x hx => o.wired.contains_child hx
    have hfresh : c.store.elementOf a.store.fresh = some child := by
      rw [h.ext.elementOf (contains_of_parentOf hlink.parentOf_self), Store.elementOf,
        hlink.faceOf, faceOf, get?_alloc_fresh]
      rfl
    have hkept : (extracted [.extract child]).filter (·.isStatement) = [child] :=
      List.filter_cons_of_pos hstatement
    rw [h.childrenOf id hid' (ne_fresh_of_contains hid), hself, List.map_append, hold, hkept,
      List.map_singleton, hfresh, List.map_singleton]
  rejects child' hstep hnot := by
    cases List.mem_singleton.mp hstep
    rw [hstatement] at hnot
    cases hnot
  repeats _ hstep := by
    cases List.mem_singleton.mp hstep

end ExtractsChildren

/-- A statement that views an element and has no children yet. -/
def Store.Blank (s : Store) (id : NodeId) (e : Element) (v : Variant) : Prop :=
  ∃ n, s.get? id = some n ∧ n.element = e ∧ n.variant = v ∧ n.children = []

namespace Store.Blank

variable {s t : Store} {id parent : NodeId} {e : Element} {v : Variant}

/-- A new statement is live. -/
theorem contains (h : s.Blank id e v) : s.contains id = true := by
  obtain ⟨n, hn, -⟩ := h
  exact contains_iff.mpr ⟨n, hn⟩

/-- A new statement views its element. -/
theorem elementOf (h : s.Blank id e v) : s.elementOf id = some e := by
  obtain ⟨n, hn, rfl, -⟩ := h
  rw [Store.elementOf, faceOf, hn]
  rfl

/-- A new statement has no children. -/
theorem childrenOf (h : s.Blank id e v) : s.childrenOf id = [] := by
  obtain ⟨n, hn, -, -, hnil⟩ := h
  rw [childrenOf_of_get? hn, hnil]

/-- A new statement has no children, wherever it has been put. -/
theorem of_link {r : Resolution} {root : RootId} {parent? : Option NodeId}
    (hlink : Relinked (s.alloc (StoreM.freshNode e r root)).2 t s.fresh parent?)
    (hchildren : t.childrenOf s.fresh = []) : t.Blank s.fresh e r.variant := by
  have hlive : t.contains s.fresh = true := by
    rw [hlink.contains]
    exact contains_iff.mpr ⟨_, get?_alloc_fresh _ _⟩
  obtain ⟨n, hn⟩ := contains_iff.mp hlive
  have hface := hlink.faceOf s.fresh
  rw [faceOf, faceOf, hn, get?_alloc_fresh, Option.map_some, Option.map_some, Option.some.injEq,
    Node.face, Node.face, Prod.mk.injEq, Prod.mk.injEq] at hface
  rw [childrenOf_of_get? hn] at hchildren
  exact ⟨n, hn, hface.2.2, hface.2.1, hchildren⟩

/-- A statement is elaborated when the element that it was made for is accounted for. -/
theorem elaborated {env : Environment} {a b : BuildState} (h : a.store.Blank id e v)
    (hext : Extends a.store b.store) (hfollows : b.FollowsElement env id e v) :
    b.Elaborated env id := by
  obtain ⟨n, hn, rfl, rfl, -⟩ := h
  obtain ⟨m, hm, hface⟩ := hext.exists_get? hn
  intro m' hm'
  rw [hm] at hm'
  cases hm'
  rw [Node.face, Node.face, Prod.mk.injEq, Prod.mk.injEq] at hface
  rw [hface.2.1, hface.2.2]
  exact hfollows

end Store.Blank

namespace BuildM

variable {env : Environment} {state : BuildState} {id : NodeId} {e : Element}

/-- The steps for the children of a statement lead from state to state as the single steps do, when
what they do can be put together and each leaves what the next one needs. -/
theorem runSteps_composes {name : String} {R : List ChildStep → BuildState → BuildState → Prop}
    {I : BuildState → Prop} (hrefl : ∀ a, I a → R [] a a)
    (htrans : ∀ {step rest a b c}, I a → R [step] a b → R rest b c → R (step :: rest) a c)
    (hkeeps : ∀ {step a b}, I a → R [step] a b → I b) (h : I state) {steps : List ChildStep}
    {extract : (child : Element) → .extract child ∈ steps → BuildM Unit}
    (hextract : ∀ child hstep t, I t →
      Succeeds (extract child hstep) t fun _ u => R [.extract child] t u)
    (hrepeated : ∀ child t, I t →
      Succeeds (reportOn env id .cardinalityViolation (repeatedMessage child name)) t
        fun _ u => R [.repeated child] t u) :
    Succeeds (runSteps env id name steps extract) state fun _ t => R steps state t := by
  induction steps generalizing state with
  | nil => exact Yields.pure (hrefl state h)
  | cons step rest ih =>
    have hrest : ∀ t, R [step] state t →
        Succeeds (runSteps env id name rest fun c h => extract c (List.mem_cons_of_mem _ h)) t
          fun _ u => R (step :: rest) state u := fun t ht =>
      (ih (hkeeps h ht) fun c hc => hextract c (List.mem_cons_of_mem _ hc)).imp
        fun _ u hu => htrans h ht hu
    cases step with
    | extract child =>
      exact Yields.bind (hextract child List.mem_cons_self state h) fun _ t ht => hrest t ht
    | «repeated» child => exact Yields.bind (hrepeated child state h) fun _ t ht => hrest t ht

/-- The steps for the children of a statement, given that every child is made a statement
from whatever store has come about. -/
theorem runSteps_extractsChildren (hstop : env.stopAt = none) (o : state.store.Owned)
    (helement : state.store.elementOf id = some e) {steps : List ChildStep}
    {extract : (child : Element) → .extract child ∈ steps → BuildM Unit}
    (hextract : ∀ child h (t : BuildState), t.store.Owned → t.store.contains id = true →
      Succeeds (extract child h) t fun _ u => ExtractsChildren env id e [.extract child] t u) :
    Succeeds (runSteps env id e.name steps extract) state fun _ t =>
      ExtractsChildren env id e steps state t := by
  refine @runSteps_composes env state id e.name (ExtractsChildren env id e)
    (fun t => t.store.Owned ∧ t.store.elementOf id = some e) (fun a h => ExtractsChildren.refl h.1)
    (fun h hab hbc => hab.trans hbc (contains_of_elementOf h.2)) (fun h hab => ?_) ⟨o, helement⟩
    _ _ (fun child hstep t h => hextract child hstep t h.1 (contains_of_elementOf h.2))
    fun child t h => ?_
  · have hid := contains_of_elementOf h.2
    exact ⟨hab.addsElaborated.ext.owned, (hab.addsElaborated.ext.elementOf hid).trans h.2⟩
  · exact (reportOn_recordsFindings hstop h.2 .cardinalityViolation
      (repeatedMessage child e.name)).imp
      fun _ u hu => ExtractsChildren.of_repeated hu h.1

/-- A child element is reported when no statement can be made of it.  Otherwise one is made, and is
populated. -/
theorem extractChild_succeeds {child : Element} {A : Resolution → RootId → Store → Prop}
    {Q : BuildState → Prop} (hid : state.store.contains id = true)
    (hreport : ∀ f, child.isStatement = false → child.Rejects f →
      Succeeds (report env f) state fun _ t => Q t)
    (hmade : ∀ r root, env.suppliers.resolveElement child = .ok r →
      Succeeds (StoreM.instantiate env.suppliers child (some id) root) state.store fun made t =>
        made = .created state.store.fresh ∧ t.Blank state.store.fresh child r.variant ∧
          A r root t)
    (hpopulate : ∀ r root (t : BuildState), child.isStatement = true →
      env.suppliers.resolveElement child = .ok r → t.log = state.log →
      t.store.Blank state.store.fresh child r.variant → A r root t.store →
      Succeeds (populate env state.store.fresh child r.variant) t fun _ u => Q u) :
    Succeeds (Functor.discard (extractChild env id child)) state fun _ t => Q t := by
  obtain ⟨p, hp⟩ := contains_iff.mp hid
  refine Yields.discard ?_
  rw [extractChild]
  refine Yields.bind_of_eq (Reading.node_apply hp) ?_
  obtain ⟨hstatement, r, hr⟩ | ⟨hstatement, f, hf, hrejects⟩ :=
    env.suppliers.resolveElement_outcome child
  · refine Yields.bind (Yields.onStore (hmade r p.root hr)) ?_
    rintro _ t ⟨⟨rfl, hblank, ha⟩, hlog⟩
    have hnew := hblank
    obtain ⟨n, hn, -, hvariant, -⟩ := hnew
    refine Yields.bind_of_eq (Reading.node_apply hn) ?_
    rw [hvariant]
    exact Yields.bind (hpopulate r p.root t hstatement hr hlog hblank ha) fun _ u hu =>
      Yields.pure hu
  · -- an element that is no statement is only reported
    refine Yields.bind_of_eq (a := .rejected f) (t := state) ?_ ?_
    · rw [onStore_apply, StoreM.instantiate_of_error hf]
    · exact Yields.bind (hreport f hstatement hrejects) fun _ t ht => Yields.pure ht

/-- A statement that is made below a live parent has no children. -/
theorem instantiate_some_blank (o : state.store.Owned) (hid : state.store.contains id = true)
    {child : Element} {r : Resolution} (hr : env.suppliers.resolveElement child = .ok r)
    (root : RootId) :
    Succeeds (StoreM.instantiate env.suppliers child (some id) root) state.store fun made t =>
      made = .created state.store.fresh ∧ t.Blank state.store.fresh child r.variant ∧ t.Owned ∧
        Relinked (state.store.alloc (StoreM.freshNode child r root)).2 t state.store.fresh
          (some id) ∧
        t.childrenOf id = state.store.childrenOf id ++ [state.store.fresh] ∧
        ∀ x, x ≠ id → t.childrenOf x = state.store.childrenOf x := by
  refine (StoreM.instantiate_some_succeeds o hid hr).imp ?_
  rintro _ t ⟨hmade, ot, hlink, hself, hother⟩
  have hne : state.store.fresh ≠ id := (ne_fresh_of_contains hid).symm
  have hnil : t.childrenOf state.store.fresh = [] := by
    rw [hother _ hne, Store.childrenOf, get?_fresh]
  exact ⟨hmade, Blank.of_link hlink hnil, ot, hlink, hself, hother⟩

/-- A child element becomes an elaborated statement below a live parent, or a finding, given
that statements are populated from it. -/
theorem extractChild_extractsChildren (hstop : env.stopAt = none) {child : Element}
    (hpopulate : ∀ (c : NodeId) (v : Variant) (t : BuildState), t.store.Owned →
      env.suppliers.Makes child v → t.store.Blank c child v →
        Succeeds (populate env c child v) t fun _ u => AddsElaborated env c t u ∧
          u.Elaborated env c)
    (o : state.store.Owned) (hid : state.store.contains id = true) :
    Succeeds (Functor.discard (extractChild env id child)) state fun _ t =>
      ExtractsChildren env id e [.extract child] state t := by
  refine extractChild_succeeds hid (fun f hstatement hrejects => ?_) (fun r root hr =>
    instantiate_some_blank o hid hr root) ?_
  · have hnode : ∀ x, f.node? = some x → state.store.contains x = true := fun _ hx => by
      cases hrejects <;> cases hx
    refine (report_recordsFindings hstop hnode).imp fun _ t ht => ?_
    have hnone : extracted [.extract child] = [child] := rfl
    refine ⟨ht.addsElaborated o _ _, ?_, fun child' hstep _ => ?_, fun name hstep => ?_⟩
    · rw [hnone, List.filter_cons_of_neg (by rw [hstatement]; exact Bool.false_ne_true)]
      exact (ExtractsChildren.of_recordsFindings ht o : ExtractsChildren env id e [] state t).view
    · cases List.mem_singleton.mp hstep
      exact ⟨f, hrejects, ht.records f List.mem_cons_self⟩
    · cases List.mem_singleton.mp hstep
  · rintro r root t hstatement hr hlog hblank ⟨ot, hlink, hself, hother⟩
    exact (hpopulate _ _ t ot ⟨r, hr, rfl⟩ hblank).imp fun _ u hu =>
      ExtractsChildren.of_child o hid hstatement ot hlink hself hother hlog hu.1 hu.2

end BuildM

/-! ## Settled statements -/

/-- The steps for the children of an element, as the variant of its statement asks. -/
def Environment.stepsFor (env : Environment) (e : Element) : Variant → List ChildStep
  | .core k => grammarSteps (env.grammar.below k) e.children ++ extensionSteps e.children
  | .extension _ _ => freeSteps e.children

/-- Only children of the element are extracted. -/
theorem mem_of_extract_mem_stepsFor {env : Environment} {e child : Element} {v : Variant}
    (h : .extract child ∈ env.stepsFor e v) : child ∈ e.children := by
  cases v with
  | core k =>
    exact (List.mem_append.mp h).elim mem_of_extract_mem_grammarSteps
      mem_of_extract_mem_extensionSteps
  | extension _ _ => exact mem_of_extract_mem_freeSteps h

section ChildrenAccounted

variable {env : Environment} {c : Cardinalities} {id : NodeId} {e : Element}
  {steps : List ChildStep} {a b : BuildState}

/-- The children of a statement that had none view elements that were extracted. -/
theorem ExtractsChildren.mem_children (hnone : a.store.childrenOf id = [])
    (h : ExtractsChildren env id e steps a b) (hsteps : ∀ child, .extract child ∈ steps →
      child ∈ e.children) {x : NodeId} (hx : x ∈ b.store.childrenOf id) :
    ∃ child ∈ e.children, b.store.elementOf x = some child := by
  have hmem : b.store.elementOf x ∈ (b.store.childrenOf id).map b.store.elementOf :=
    List.mem_map_of_mem hx
  rw [h.view, hnone] at hmem
  obtain ⟨child, hchild, heq⟩ := List.mem_map.mp hmem
  exact ⟨child, hsteps child (mem_extracted.mp (List.mem_of_mem_filter hchild)), heq.symm⟩

/-- The steps for the children of a core element account for all of them, once the
unexpected ones are complained about. -/
theorem ExtractsChildren.childrenAccounted_core (hc : c.Proper) (hnone : a.store.childrenOf id = [])
    (h : ExtractsChildren env id e (grammarSteps c e.children ++ extensionSteps e.children) a b)
    (hunexpected : ∀ child ∈ unexpectedChildren c [] e.children,
      b.log.Records (unexpectedFinding e child)) :
    b.ChildrenAccounted id e.children (c.kept e.children) (c.AccountsForChild id e) where
  view := by
    rw [h.view, hnone, extracted_append, Cardinalities.kept_eq hc]
    rfl
  rest := by
    obtain ⟨rest, hperm, hrest⟩ := Cardinalities.exists_rest hc e.children
    refine ⟨rest, hperm, fun child hchild => ?_⟩
    cases hrest child hchild with
    | rejected hstep hnot =>
      obtain ⟨f, hrejects, hf⟩ := h.rejects child hstep hnot
      exact ⟨f, .rejected hrejects, hf⟩
    | «repeated» hstep =>
      refine ⟨repeatedFinding id e child.name, ?_, ?_⟩
      · exact .repeated (contains_of_repeated_mem_grammarSteps hstep)
          (two_le_countP_of_repeated_mem_grammarSteps hstep)
      · exact h.repeats _ (List.mem_append_left _ hstep)
    | unexpected hmem hname hallows =>
      obtain ⟨first, hfirst, hfind⟩ :=
        find?_mem_unexpectedChildren hmem hname hallows List.not_mem_nil
      exact ⟨unexpectedFinding e first, .unexpected hname hallows hfind, hunexpected first hfirst⟩

/-- The children of an extension are accounted for when the free steps have been carried out. -/
theorem ExtractsChildren.childrenAccounted_extension (hnone : a.store.childrenOf id = [])
    (h : ExtractsChildren env id e (freeSteps e.children) a b) :
    b.ChildrenAccounted id e.children (keptFreely e.children) Element.Rejects where
  view := by
    rw [h.view, hnone, keptFreely_eq]
    rfl
  rest := by
    obtain ⟨rest, hperm, hrest⟩ := exists_rest_keptFreely e.children
    refine ⟨rest, hperm, fun child hchild => ?_⟩
    obtain ⟨hstep, hnot⟩ := hrest child hchild
    exact h.rejects child hstep hnot

end ChildrenAccounted

namespace BuildM

variable {env : Environment} {state : BuildState} {id : NodeId} {e : Element}

/-- A core statement is populated by the steps for its children, and what is remarked about it
besides is recorded. -/
theorem populate_core_extractsChildren (hstop : env.stopAt = none) {k : Keyword}
    (o : state.store.Owned)
    (h : state.store.Blank id e (.core k))
    (hextract : ∀ child ∈ e.children, ∀ t : BuildState, t.store.Owned →
      t.store.contains id = true → Succeeds (Functor.discard (extractChild env id child)) t
        fun _ u => ExtractsChildren env id e [.extract child] t u) :
    Succeeds (populate env id e (.core k)) state fun _ t =>
      ExtractsChildren env id e (env.stepsFor e (.core k)) state t ∧
        (∀ message ∈ missingMessages (env.grammar.below k) e,
          t.log.Records (missingFinding id e message)) ∧
        ∀ child ∈ unexpectedChildren (env.grammar.below k) [] e.children,
          t.log.Records (unexpectedFinding e child) := by
  have hid := h.contains
  rw [populate_core]
  refine Yields.bind (runSteps_extractsChildren hstop o h.elementOf fun child hstep t ot ht =>
    hextract child (mem_of_extract_mem_grammarSteps hstep) t ot ht) fun _ b hb => ?_
  have ob := hb.addsElaborated.ext.owned
  have hidb := hb.addsElaborated.ext.contains id hid
  have heb := (hb.addsElaborated.ext.elementOf hid).trans h.elementOf
  have hmissing : Succeeds (reportMissing env id (env.grammar.below k) e) b fun _ c =>
      RecordsFindings ((missingMessages (env.grammar.below k) e).map (missingFinding id e)) b
        c := by
    refine forM_recordsFindings fun message _ c hc => reportOn_recordsFindings hstop ?_ _ message
    rw [(Extends.of_parallel ob hc).elementOf hidb, heb]
  refine Yields.bind hmissing fun _ c hc => ?_
  have oc := ob.of_parallel hc.parallel
  have hec := ((Extends.of_parallel ob hc.parallel).elementOf hidb).trans heb
  refine Yields.bind (runSteps_extractsChildren hstop oc hec fun child hstep t ot ht =>
    hextract child (mem_of_extract_mem_extensionSteps hstep) t ot ht) fun _ d hd => ?_
  have hsteps := (hb.trans ((ExtractsChildren.of_recordsFindings hc ob).trans hd hidb) hid)
  have hidd := hsteps.addsElaborated.ext.contains id hid
  refine (completeCore_recordsFindings hstop hd.addsElaborated.ext.owned.wired hidd k _ e).imp
    fun _ t ht => ?_
  have hall := hsteps.trans (ExtractsChildren.of_recordsFindings ht hd.addsElaborated.ext.owned) hid
  rw [List.nil_append, List.append_nil] at hall
  refine ⟨hall, fun message hmessage => ?_, fun child hchild => ?_⟩
  · exact (hd.addsElaborated.log.trans ht.log).records (hc.records _ (List.mem_map_of_mem hmessage))
  · exact ht.records _ (List.mem_map_of_mem hchild)

/-- Populating an extension carries out the free steps. -/
theorem populate_extension_extractsChildren (hstop : env.stopAt = none) {supplier : Option Nat}
    {c : ExtensionClass} (o : state.store.Owned)
    (h : state.store.Blank id e (.extension supplier c))
    (hextract : ∀ child ∈ e.children, ∀ t : BuildState, t.store.Owned →
      t.store.contains id = true → Succeeds (Functor.discard (extractChild env id child)) t
        fun _ u => ExtractsChildren env id e [.extract child] t u) :
    Succeeds (populate env id e (.extension supplier c)) state fun _ t =>
      ExtractsChildren env id e (env.stepsFor e (.extension supplier c)) state t := by
  have hid := h.contains
  rw [populate_extension]
  refine Yields.bind (runSteps_extractsChildren hstop o h.elementOf fun child hstep t ot ht =>
    hextract child (mem_of_extract_mem_freeSteps hstep) t ot ht) fun _ b hb => ?_
  have ob := hb.addsElaborated.ext.owned
  have hidb := hb.addsElaborated.ext.contains id hid
  refine (onlyReports_recordsFindings hstop (OnlyReports.completeExtension ob.wired hidb c)).imp
    fun _ t ht => ?_
  have hall := hb.trans (ExtractsChildren.of_recordsFindings ht ob) hid
  rwa [List.append_nil] at hall

/-- Populating a core statement elaborates it, when extracting each child does what its step asks.
-/
theorem populate_core_elaborates (hstop : env.stopAt = none) {k : Keyword}
    (hmakes : env.suppliers.Makes e (.core k)) (o : state.store.Owned)
    (h : state.store.Blank id e (.core k))
    (hextract : ∀ child ∈ e.children, ∀ t : BuildState, t.store.Owned →
      t.store.contains id = true → Succeeds (Functor.discard (extractChild env id child)) t
        fun _ u => ExtractsChildren env id e [.extract child] t u) :
    Succeeds (populate env id e (.core k)) state fun _ t =>
      AddsElaborated env id state t ∧ t.Elaborated env id := by
  refine (populate_core_extractsChildren hstop o h hextract).imp ?_
  rintro _ t ⟨hall, hmissing, hunexpected⟩
  refine ⟨hall.addsElaborated, h.elaborated hall.addsElaborated.ext
    ⟨hmakes, fun x hx => ?_, fun hg => ?_,
    fun k' hk f hf => ?_⟩⟩
  · exact hall.mem_children h.childrenOf (fun _ => mem_of_extract_mem_stepsFor) hx
  · exact hall.childrenAccounted_core (hg.below k) h.childrenOf hunexpected
  · cases hk
    cases hf with
    | «repeated» hstep => exact hall.repeats _ (List.mem_append_left _ hstep)
    | missing hmessage => exact hmissing _ hmessage
    | unexpected hchild => exact hunexpected _ hchild

/-- Populating an extension elaborates it, when extracting each child does what its step asks. -/
theorem populate_extension_elaborates (hstop : env.stopAt = none) {supplier : Option Nat}
    {c : ExtensionClass} (hmakes : env.suppliers.Makes e (.extension supplier c))
    (o : state.store.Owned) (h : state.store.Blank id e (.extension supplier c))
    (hextract : ∀ child ∈ e.children, ∀ t : BuildState, t.store.Owned →
      t.store.contains id = true → Succeeds (Functor.discard (extractChild env id child)) t
        fun _ u => ExtractsChildren env id e [.extract child] t u) :
    Succeeds (populate env id e (.extension supplier c)) state fun _ t =>
      AddsElaborated env id state t ∧ t.Elaborated env id := by
  refine (populate_extension_extractsChildren hstop o h hextract).imp fun _ t hall => ?_
  refine ⟨hall.addsElaborated, h.elaborated hall.addsElaborated.ext
    ⟨hmakes, fun x hx => ?_, fun _ => ?_,
    fun _ hk => by cases hk⟩⟩
  · exact hall.mem_children h.childrenOf (fun _ => mem_of_extract_mem_stepsFor) hx
  · exact hall.childrenAccounted_extension h.childrenOf

/-- Populating a new statement settles it, and every statement that is made for it. -/
theorem populate_elaborates (hstop : env.stopAt = none) (e : Element) (id : NodeId) (v : Variant)
    (state : BuildState) (o : state.store.Owned) (hmakes : env.suppliers.Makes e v)
    (h : state.store.Blank id e v) :
    Succeeds (populate env id e v) state fun _ t =>
      AddsElaborated env id state t ∧ t.Elaborated env id := by
  have hextract : ∀ child ∈ e.children, ∀ t : BuildState, t.store.Owned →
      t.store.contains id = true → Succeeds (Functor.discard (extractChild env id child)) t
        fun _ u => ExtractsChildren env id e [.extract child] t u := by
    intro child hmem t ot ht
    have := Element.sizeOf_lt_of_mem_children hmem
    exact extractChild_extractsChildren hstop
      (fun c w u ou hmakes hu => populate_elaborates hstop child c w u ou hmakes hu) ot ht
  cases v with
  | core k => exact populate_core_elaborates hstop hmakes o h hextract
  | extension supplier c => exact populate_extension_elaborates hstop hmakes o h hextract
termination_by sizeOf e

/-- Populating a new statement carries out the steps for its children. -/
theorem populate_extractsChildren (hstop : env.stopAt = none) {v : Variant} (o : state.store.Owned)
    (h : state.store.Blank id e v) :
    Succeeds (populate env id e v) state fun _ t =>
      ExtractsChildren env id e (env.stepsFor e v) state t := by
  have hextract : ∀ child ∈ e.children, ∀ t : BuildState, t.store.Owned →
      t.store.contains id = true → Succeeds (Functor.discard (extractChild env id child)) t
        fun _ u => ExtractsChildren env id e [.extract child] t u := fun child _ t ot ht =>
    extractChild_extractsChildren hstop (fun c w u ou hmakes hu =>
      populate_elaborates hstop child c w u ou hmakes hu) ot ht
  cases v with
  | core k => exact (populate_core_extractsChildren hstop o h hextract).imp fun _ _ ht => ht.1
  | extension supplier c => exact populate_extension_extractsChildren hstop o h hextract

end BuildM

/-! ## New statements -/

namespace StoreM

variable {s t : Store} {suppliers : Suppliers} {e : Element} {root : RootId} {id : NodeId}

/-- A statement that was made for an element is new, wherever it has been put. -/
theorem blank_of_instantiate_eq (o : s.Owned) {parent? : Option NodeId}
    (h : instantiate suppliers e parent? root s = (.ok (.created id), t)) :
    t.Owned ∧ ∃ v, suppliers.Makes e v ∧ t.Blank id e v := by
  rcases hr : suppliers.resolveElement e with f | r
  · rw [instantiate_of_error hr] at h
    cases h
  have hnew : (s.alloc (freshNode e r root)).2.get? s.fresh = some (freshNode e r root) :=
    get?_alloc_fresh s _
  have onew : (s.alloc (freshNode e r root)).2.Owned := o.alloc rfl rfl
  rcases parent? with _ | parent
  · rw [instantiate_none_apply hr] at h
    cases h
    exact ⟨onew, r.variant, ⟨r, hr, rfl⟩, _, hnew, rfl, rfl, rfl⟩
  rw [instantiate_some_apply hr] at h
  rcases hcheck : (s.alloc (freshNode e r root)).2.checkAttach parent s.fresh with f | _
  · -- no statement is made below a parent that cannot have it
    have happend : appendChild parent s.fresh (s.alloc (freshNode e r root)).2 = (.error f, _) :=
      addChild_of_error hcheck none
    rw [bind_apply_of_error happend] at h
    cases h
  have hattach := (attachable_iff onew.wired).mp hcheck
  have hne : s.fresh ≠ parent := by
    rintro rfl
    exact hattach.not_below .self
  have hsucceeds : Succeeds (appendChild parent s.fresh >>= fun _ =>
      pure (Instantiation.created s.fresh)) (s.alloc (freshNode e r root)).2 fun i t =>
        i = .created s.fresh ∧ t.Owned ∧ t.Blank s.fresh e r.variant := by
    refine Yields.bind (addChild_detached_succeeds onew hattach (parentOf_of_get? hnew) none) ?_
    intro _ t ⟨ot, hlink, hchildren⟩
    refine Yields.pure ⟨rfl, ot, Blank.of_link hlink ?_⟩
    rw [hchildren, childrenOf_link_of_ne hne, childrenOf_of_get? hnew]
    rfl
  obtain ⟨hid, ot, hblank⟩ := Yields.result hsucceeds h
  cases hid
  exact ⟨ot, r.variant, ⟨r, hr, rfl⟩, hblank⟩

end StoreM

/-- The children of a statement that had none are new. -/
theorem Store.Extends.new_of_parentOf {s t : Store} {id c : NodeId} (h : Extends s t) (w : s.Wired)
    (hnone : s.childrenOf id = []) (hc : t.parentOf c = some id) : s.contains c = false := by
  by_contra hold
  rw [Bool.not_eq_false] at hold
  rw [h.parentOf c hold] at hc
  have hmem := w.mem_of_parentOf hc
  rw [hnone] at hmem
  cases hmem

/-- Below a statement that had no children all statements are new. -/
theorem Store.Extends.new_of_below {s t : Store} {id x : NodeId} (h : Extends s t) (w : s.Wired)
    (hnone : s.childrenOf id = []) (hx : t.Below id x) :
    x = id ∨ t.contains x = true ∧ s.contains x = false := by
  induction hx with
  | self => exact .inl rfl
  | @under x p hp _ ih =>
    refine .inr ⟨contains_of_parentOf hp, ?_⟩
    obtain rfl | ⟨-, hnew⟩ := ih
    · exact h.new_of_parentOf w hnone hp
    by_contra hold
    rw [Bool.not_eq_false] at hold
    rw [h.parentOf x hold] at hp
    rw [w.contains_parent hp] at hnew
    cases hnew

/-- Below a statement that had no children there is only what is new. -/
theorem BuildState.AddsElaborated.new_of_below {env : Environment} {id : NodeId} {a b : BuildState}
    (h : AddsElaborated env id a b) (w : a.store.Wired) (hnone : a.store.childrenOf id = [])
    {x : NodeId}
    (hx : b.store.Below id x) : x = id ∨ b.store.contains x = true ∧ a.store.contains x = false :=
  h.ext.new_of_below w hnone hx

namespace BuildM

/-- Processing a new statement settles it, and every statement that is made for it. -/
theorem process_elaborates {env : Environment} (hstop : env.stopAt = none) {e : Element}
    {v : Variant} {id : NodeId} {state : BuildState} (o : state.store.Owned)
    (hmakes : env.suppliers.Makes e v) (hblank : state.store.Blank id e v) :
    Succeeds (process env id) state fun _ t => AddsElaborated env id state t ∧
      t.Elaborated env id := by
  have hpopulate := populate_elaborates hstop e id v state o hmakes hblank
  obtain ⟨n, hn, rfl, rfl, -⟩ := hblank
  exact Yields.bind_of_eq (Reading.node_apply hn) hpopulate

/-- Processing a new statement never fails when nothing asks to stop.  Then the children
of every statement in its subtree are what the grammar keeps of the element, in this order
and each once, and a recorded finding accounts for every other child element. -/
theorem process_accounts {env : Environment} (hstop : env.stopAt = none)
    (hg : env.grammar.Proper) {e : Element} {parent? : Option NodeId} {root : RootId}
    {id : NodeId} {state : BuildState} {s : Store} (o : state.store.Owned)
    (hnew : StoreM.instantiate env.suppliers e parent? root state.store =
      (.ok (.created id), s)) :
    ∃ t, process env id { state with store := s } = (.ok (), t) ∧
      ∀ x, t.store.Below id x →
        ∃ n, t.store.get? x = some n ∧ t.AccountsForAll env.grammar x n.element n.variant := by
  obtain ⟨os, v, hmakes, hblank⟩ := StoreM.blank_of_instantiate_eq o hnew
  have hprocess : Succeeds (process env id) { state with store := s } fun _ t =>
      AddsElaborated env id { state with store := s } t ∧ t.Elaborated env id :=
    process_elaborates hstop os hmakes hblank
  unfold Succeeds Yields at hprocess
  rcases hrun : process env id { state with store := s } with ⟨f | _, t⟩
  · rw [hrun] at hprocess
    exact hprocess.elim
  rw [hrun] at hprocess
  obtain ⟨hadds, helaborated⟩ := hprocess
  refine ⟨t, rfl, fun x hx => ?_⟩
  obtain rfl | ⟨hlive, hfresh⟩ := hadds.new_of_below os.wired hblank.childrenOf hx
  · obtain ⟨n, hn⟩ := contains_iff.mp (hadds.ext.contains x hblank.contains)
    exact ⟨n, hn, (helaborated n hn).childrenAccounted hg⟩
  · obtain ⟨n, hn⟩ := contains_iff.mp hlive
    exact ⟨n, hn, (hadds.elaborated x hlive hfresh n hn).childrenAccounted hg⟩

/-- A leaf with two types, an unknown child and a child of a qualifier that is not bound. -/
def crowdedLeaf : Element :=
  let child (name : String) (value : Option String) : Element :=
    { name, value, line := none, source := none, scope := { home := "m" }, children := [] }
  { child "leaf" (some "l") with
    children := [child "description" (some "A leaf."), child "type" (some "string"),
      child "x:mark" none, child "type" (some "int32"), child "bogus" none] }

/-- A leaf with two types and two strange children has all of them accounted for. -/
theorem process_accounts_crowdedLeaf :
    ∃ t, process { grammar := .standard, suppliers := {} } ⟨0⟩
        { store := (Store.alloc {} (StoreM.freshNode crowdedLeaf
          ⟨Key.core "leaf", .core .leaf⟩ ⟨0⟩)).2 } = (.ok (), t) ∧
      ∀ x, t.store.Below ⟨0⟩ x → ∃ n, t.store.get? x = some n ∧
        t.AccountsForAll .standard x n.element n.variant :=
  have hresolve : Suppliers.resolveElement {} crowdedLeaf =
      .ok ⟨Key.core "leaf", .core .leaf⟩ := by rfl
  have hnew : StoreM.instantiate {} crowdedLeaf none ⟨0⟩ ({} : Store) = _ :=
    StoreM.instantiate_none_apply hresolve
  have hstart : ({} : BuildState).store.Owned := Owned.empty
  have henv : Environment.stopAt { grammar := .standard, suppliers := {} } = none := rfl
  process_accounts henv Grammar.proper_standard hstart hnew

example : ((Grammar.below .standard .leaf).kept crowdedLeaf.children).map (·.name) =
    ["type", "description"] := by cbv

end BuildM

end StatementForest
