import StatementForest.Proofs.Store.AtomicMutations
import StatementForest.Proofs.Attribute.InheritedValues

/-!
# Status and config along a path

What is handed down to a statement is a running value over the path to it: config stays true for
as long as nothing on the path denies it, and the status is the latest one that is inherited or
declared.  A worklist may take up the statements of a subtree in any order, as long as each one
waits for its parent, and ends as the walk from parents to children does.

Main results:

- Theorem `Store.Inherits.config_iff`: the config value of a statement, from its path.
- Theorem `Store.Inherits.isLatest`: the status of a statement is the maximum over its path.
- Theorem `StoreM.WorklistRun.deliversBelow`: what a step of a worklist preserves, by induction on
  its run.
- Theorem `StoreM.worklistRun_iff`: a worklist ends as the walk does, whatever its order.
- Theorem `StoreM.assigned_along_paths`: a subtree gets these values, nothing else changes, and
  every worklist ends in the same way.

Current gaps:

- The worklist takes up one statement at a time.  Statements that are taken up at the same time
  are not modelled.
-/

namespace StatementForest

variable {α : Type}

/-! ## Paths -/

namespace Store

variable {s t : Store} {top x c y : NodeId}

/-- A statement stands on the path from one statement down to another. -/
def OnPath (s : Store) (top x y : NodeId) : Prop := s.Below top y ∧ s.Below y x

/-- The only statement on the path from a statement to itself is this one. -/
theorem onPath_top (w : s.Wired) : s.OnPath top top y ↔ y = top := by
  constructor
  · rintro ⟨htop, hy⟩
    exact hy.antisymm (w.grounded top) htop
  · rintro rfl
    exact ⟨.self, .self⟩

/-- The path to a child is that to its parent and the child itself. -/
theorem onPath_child (hx : s.Below top x) (hc : s.parentOf c = some x) :
    s.OnPath top c y ↔ y = c ∨ s.OnPath top x y := by
  rw [OnPath, below_iff_of_parentOf hc, and_or_left]
  refine or_congr ⟨fun h => h.2, ?_⟩ Iff.rfl
  rintro rfl
  exact ⟨.under hc hx, rfl⟩

/-! ## Config -/

/-- A statement is an action, a call or a notification, or its first `config` is false. -/
def DeniesConfig (s : Store) (y : NodeId) : Prop :=
  (∃ n k, s.get? y = some n ∧ n.keyword? = some k ∧
    (k = .action ∨ k = .rpc ∨ k = .notification)) ∨
  ∃ n, s.firstNodeOfKeyword y .config = some n ∧ n.argument = "false"

/-- The test whether a statement denies its config is right. -/
theorem declaresConfigFalse_iff : s.declaresConfigFalse y = true ↔ s.DeniesConfig y := by
  have hforces : ∀ k : Keyword, k.forcesConfigFalse = true ↔
      k = .action ∨ k = .rpc ∨ k = .notification := fun k => by
    cases k <;> simp [Keyword.forcesConfigFalse]
  simp only [declaresConfigFalse, Bool.or_eq_true, Option.any_eq_true, Option.bind_eq_some_iff,
    beq_iff_eq, hforces, DeniesConfig]
  refine or_congr ⟨?_, ?_⟩ Iff.rfl
  · rintro ⟨k, ⟨n, hn, hk⟩, hforced⟩
    exact ⟨n, k, hn, hk, hforced⟩
  · rintro ⟨n, k, hn, hk, hforced⟩
    exact ⟨k, ⟨n, hn, hk⟩, hforced⟩

/-- The config stays true as long as no statement denies it. -/
theorem configBelow_eq_true_iff {inherited : Bool} :
    s.configBelow y inherited = true ↔ inherited = true ∧ ¬ s.DeniesConfig y := by
  rw [configBelow, Bool.and_eq_true, Bool.not_eq_true', ← declaresConfigFalse_iff,
    Bool.not_eq_true]

/-- Config is handed down for as long as nothing denies it, by induction on the path. -/
theorem Inherits.config_iff (w : s.Wired) {inherited value : Bool}
    (h : s.Inherits configBelow top inherited x value) :
    value = true ↔ inherited = true ∧ ∀ y, s.OnPath top x y → ¬ s.DeniesConfig y := by
  induction h with
  | top => simp only [configBelow_eq_true_iff, onPath_top w, forall_eq]
  | child h hc ih =>
    simp only [configBelow_eq_true_iff, ih, onPath_child h.stands_below hc, forall_eq_or_imp]
    rw [and_assoc, and_comm (b := ¬ _)]

/-! ## Status -/

/-- A status is the latest of one that is inherited and of those that are declared on a path. -/
structure IsLatest (s : Store) (top x : NodeId) (inherited latest : Status) : Prop where
  inherited_le : inherited.rank ≤ latest.rank
  declared_le : ∀ y status, s.OnPath top x y → s.declaredStatus y = some status →
    status.rank ≤ latest.rank
  eq_or : latest = inherited ∨ ∃ y, s.OnPath top x y ∧ s.declaredStatus y = some latest

end Store

/-- What is declared overrides what is inherited when it is later, so the status that is handed on
is the maximum of both. -/
theorem Status.override_isLatest (inherited : Status) (declared : Option Status) :
    inherited.rank ≤ (inherited.override declared).rank ∧
    (∀ status, declared = some status → status.rank ≤ (inherited.override declared).rank) ∧
    (inherited.override declared = inherited ∨
      declared = some (inherited.override declared)) := by
  rcases declared with _ | status
  · have hnothing : inherited.override none = inherited := by cases inherited <;> rfl
    rw [hnothing]
    exact ⟨Nat.le_refl _, nofun, .inl rfl⟩
  · rw [override_eq_max, Option.getD_some, rank_max]
    refine ⟨Nat.le_max_left _ _, ?_, (inherited.max_eq_or status).imp_right ?_⟩
    · rintro _ ⟨⟩
      exact Nat.le_max_right _ _
    · exact fun heq => congrArg some heq.symm

namespace Store

variable {s t : Store} {top x c y : NodeId}

/-- The latest status of a path and one more statement. -/
theorem IsLatest.child {inherited latest : Status} (h : s.IsLatest top x inherited latest)
    (hx : s.Below top x) (hc : s.parentOf c = some x) :
    s.IsLatest top c inherited (s.statusBelow c latest) := by
  obtain ⟨hle, hdeclared, heq⟩ := latest.override_isLatest (s.declaredStatus c)
  refine ⟨h.inherited_le.trans hle, fun y status hy hstatus => ?_, ?_⟩
  · obtain rfl | hy := (onPath_child hx hc).mp hy
    · exact hdeclared status hstatus
    · exact (h.declared_le y status hy hstatus).trans hle
  · obtain heq | heq := heq
    · rw [statusBelow, heq]
      refine h.eq_or.imp_right ?_
      rintro ⟨y, hy, hstatus⟩
      exact ⟨y, (onPath_child hx hc).mpr (.inr hy), hstatus⟩
    · exact .inr ⟨c, (onPath_child hx hc).mpr (.inl rfl), heq⟩

/-- The status that is handed down is the latest one, by induction on the path. -/
theorem Inherits.isLatest (w : s.Wired) {inherited value : Status}
    (h : s.Inherits statusBelow top inherited x value) : s.IsLatest top x inherited value := by
  induction h with
  | top =>
    obtain ⟨hle, hdeclared, heq⟩ := inherited.override_isLatest (s.declaredStatus top)
    refine ⟨hle, fun y status hy hstatus => ?_, heq.imp_right fun heq => ?_⟩
    · rw [(onPath_top w).mp hy] at hstatus
      exact hdeclared status hstatus
    · exact ⟨top, (onPath_top w).mpr rfl, heq⟩
  | child h hc ih => exact ih.child h.stands_below hc

/-- The path to a statement further down is longer. -/
theorem OnPath.extend (h : s.OnPath top x y) (hx : s.Below x c) : s.OnPath top c y :=
  ⟨h.1, h.2.trans hx⟩

/-- Further down the latest status is no earlier one. -/
theorem IsLatest.rank_le {inherited latest lower : Status}
    (h : s.IsLatest top x inherited latest) (h' : s.IsLatest top c inherited lower)
    (hx : s.Below x c) : latest.rank ≤ lower.rank := by
  obtain rfl | ⟨y, hy, hdeclared⟩ := h.eq_or
  · exact h'.inherited_le
  · exact h'.declared_le y latest (hy.extend hx) hdeclared

end Store

namespace StoreM

open Store

variable {rule : Store → NodeId → α → α} {write : α → Node → Node} {s t : Store} {id : NodeId}

/-! ## Worklists -/

/-- Statements that wait, each with the value that it inherits. -/
abbrev Pending (α : Type) := List (NodeId × α)

/-- The children of a statement, with its value. -/
def pendingBelow (s : Store) (id : NodeId) (value : α) : Pending α :=
  (s.childrenOf id).map (·, value)

/-- A run over a worklist.  Any statement of the list may be the next one: it gets its value, and
its children are put on the list. -/
inductive WorklistRun (rule : Store → NodeId → α → α) (write : α → Node → Node) :
    Pending α → Store → Store → Prop where
  | done {s : Store} : WorklistRun rule write [] s s
  | next {pending rest : Pending α} {id : NodeId} {inherited : α} {s t : Store}
      (hnext : pending.Perm ((id, inherited) :: rest)) (hlive : s.contains id = true)
      (h : WorklistRun rule write (pendingBelow s id (rule s id inherited) ++ rest)
        (s.update id (write (rule s id inherited))) t) : WorklistRun rule write pending s t

/-- No statement of a worklist stands below another one. -/
def PendingApart (s : Store) (pending : Pending α) : Prop :=
  pending.Pairwise fun p q => ∀ x, s.Below p.1 x → ¬ s.Below q.1 x

/-- The statements below a worklist have got what is handed down to them. -/
structure DeliversBelow (rule : Store → NodeId → α → α) (write : α → Node → Node)
    (pending : Pending α) (s t : Store) : Prop where
  parallel : Parallel s t
  reached : ∀ p ∈ pending, ∀ x value, s.Inherits rule p.1 p.2 x value →
    t.get? x = (s.get? x).map (write value)
  other : ∀ x, (∀ p ∈ pending, ¬ s.Below p.1 x) → t.get? x = s.get? x

/-- A statement on the list can be replaced by its children. -/
theorem PendingApart.step (w : s.Wired) {rest : Pending α} {inherited : α}
    (h : PendingApart s ((id, inherited) :: rest)) (value : α) :
    PendingApart s (pendingBelow s id value ++ rest) := by
  obtain ⟨hrest, hapart⟩ := List.pairwise_cons.mp h
  refine List.pairwise_append.mpr ⟨?_, hapart, ?_⟩
  · rw [pendingBelow, List.pairwise_map]
    refine (w.nodup_children id).imp_of_mem fun hc hd hne x hx hx' => ?_
    exact w.not_below_of_siblings hc hd hne hx hx'
  · intro p hp q hq x hx
    obtain ⟨c, hc, rfl⟩ := List.mem_map.mp hp
    exact hrest q hq x ((below_of_parentOf (w.parentOf_of_mem hc)).trans hx)

/-- A statement gets its value before its children do, and nothing else on the list gets it. -/
theorem DeliversBelow.step (w : s.Wired) (hrule : ReadsLinksOnly rule)
    (hwrite : ∀ a, Node.KeepsLinks (write a))
    {rest : Pending α} {inherited : α} (hapart : PendingApart s ((id, inherited) :: rest))
    (h : DeliversBelow rule write (pendingBelow s id (rule s id inherited) ++ rest)
      (s.update id (write (rule s id inherited))) t) :
    DeliversBelow rule write ((id, inherited) :: rest) s t := by
  obtain ⟨hrest, -⟩ := List.pairwise_cons.mp hapart
  have hfirst : Parallel s (s.update id (write (rule s id inherited))) :=
    parallel_update (hwrite _) id
  have hmem : ∀ {p}, p ∈ pendingBelow s id (rule s id inherited) ↔
      ∃ c ∈ s.childrenOf id, (c, rule s id inherited) = p := List.mem_map
  refine ⟨hfirst.trans h.parallel, fun p hp x value hx => ?_, fun x hx => ?_⟩
  · obtain rfl | hp := List.mem_cons.mp hp
    · obtain ⟨rfl, rfl⟩ | ⟨d, hd, hx⟩ := hx.down
      · rw [h.other, get?_update_self]
        intro q hq hbelow
        rw [hfirst.below_iff] at hbelow
        obtain hq | hq := List.mem_append.mp hq
        · obtain ⟨c, hc, rfl⟩ := hmem.mp hq
          exact (w.grounded _).not_below_parent (w.parentOf_of_mem hc) hbelow
        · exact hrest q hq _ .self hbelow
      · have hne : x ≠ id := by
          rintro rfl
          exact (w.grounded _).not_below_parent hd hx.stands_below
        have hd' := List.mem_append_left rest (hmem.mpr ⟨d, w.mem_of_parentOf hd, rfl⟩)
        rw [h.reached _ hd' x value (hx.of_parallel hfirst hrule), get?_update_of_ne s _ hne]
    · have hne : x ≠ id := by
        intro heq
        rw [heq] at hx
        exact hrest p hp _ .self hx.stands_below
      rw [h.reached p (List.mem_append_right _ hp) x value (hx.of_parallel hfirst hrule),
        get?_update_of_ne s _ hne]
  · have hne : x ≠ id := by
      rintro rfl
      exact hx _ List.mem_cons_self .self
    rw [h.other x, get?_update_of_ne s _ hne]
    intro q hq hbelow
    rw [hfirst.below_iff] at hbelow
    obtain hq | hq := List.mem_append.mp hq
    · obtain ⟨c, hc, rfl⟩ := hmem.mp hq
      exact hx _ List.mem_cons_self ((below_of_parentOf (w.parentOf_of_mem hc)).trans hbelow)
    · exact hx q (List.mem_cons_of_mem _ hq) hbelow

/-- A worklist delivers what is handed down, by induction on its run. -/
theorem WorklistRun.deliversBelow (hrule : ReadsLinksOnly rule)
    (hwrite : ∀ a, Node.KeepsLinks (write a))
    {pending : Pending α} (h : WorklistRun rule write pending s t) (w : s.Wired)
    (hapart : PendingApart s pending) : DeliversBelow rule write pending s t := by
  induction h with
  | done => exact ⟨Parallel.refl _, fun _ hp => absurd hp List.not_mem_nil, fun _ _ => rfl⟩
  | @next pending rest id inherited s t hnext _ _ ih =>
    have hfirst : Parallel s (s.update id (write (rule s id inherited))) :=
      parallel_update (hwrite _) id
    have hapart : PendingApart s ((id, inherited) :: rest) :=
      (hnext.pairwise_iff fun hpq x hx hx' => hpq x hx' hx).mp hapart
    have hkept : PendingApart (s.update id (write (rule s id inherited)))
        (pendingBelow s id (rule s id inherited) ++ rest) := by
      refine (hapart.step w _).imp fun hpq x => ?_
      rw [hfirst.below_iff, hfirst.below_iff]
      exact hpq x
    have hdelivers := (ih (w.of_parallel hfirst) hkept).step w hrule hwrite hapart
    exact ⟨hdelivers.parallel, fun p hp => hdelivers.reached p (hnext.mem_iff.mp hp),
      fun x hx => hdelivers.other x fun p hp => hx p (hnext.mem_iff.mpr hp)⟩

/-- The walk is the run that takes up the children of a statement at once. -/
theorem inheritWithin_worklistRun (height : Nat) (inherited : α) (id : NodeId) (s : Store) :
    Yields (fun _ _ => True) (inheritWithin rule write height inherited id) s fun _ t =>
      ∀ rest u, WorklistRun rule write rest t u →
        WorklistRun rule write ((id, inherited) :: rest) s u := by
  induction height generalizing inherited id s with
  | zero => exact Yields.throw trivial
  | succ height ih =>
    rw [inheritWithin_succ]
    rcases hn : s.get? id with _ | n
    · exact Yields.bind_of_error (node_apply_of_none hn) trivial
    refine Yields.bind_of_eq (node_apply hn) (Yields.bind_get ?_)
    apply Yields.bind_of_eq (update_apply hn _)
    have hloop : ∀ (value : α) (children : List NodeId) (s : Store),
        Yields (fun _ _ => True)
          (children.forM fun child => inheritWithin rule write height value child) s fun _ t =>
          ∀ rest u, WorklistRun rule write rest t u →
            WorklistRun rule write (children.map (·, value) ++ rest) s u := by
      intro value children
      induction children with
      | nil => exact fun s => Yields.pure fun _ _ h => h
      | cons c children ihchildren =>
        intro s
        refine Yields.bind (ih value c s) fun _ t hc => ?_
        exact (ihchildren t).imp fun _ t' hchildren rest u h => hc _ u (hchildren rest u h)
    refine (hloop _ _ _).imp fun _ t hchildren rest u h => ?_
    refine .next (List.Perm.refl _) (contains_iff.mpr ⟨n, hn⟩) ?_
    rw [pendingBelow, childrenOf_of_get? hn]
    exact hchildren rest u h

/-- A worklist that starts with one statement ends as the walk from it does, whatever the order in
which the list is worked off. -/
theorem worklistRun_iff (hrule : ReadsLinksOnly rule) (hwrite : ∀ a, Node.KeepsLinks (write a))
    (w : s.Wired) (hid : s.contains id = true) (inherited : α) :
    WorklistRun rule write [(id, inherited)] s t ↔
      inherit rule write inherited id s = (.ok ⟨⟩, t) := by
  have hwalk : Yields (fun _ _ => True) (inherit rule write inherited id) s fun _ t =>
      ∀ rest u, WorklistRun rule write rest t u →
        WorklistRun rule write ((id, inherited) :: rest) s u :=
    Yields.bind_get (inheritWithin_worklistRun _ inherited id s)
  constructor
  · intro h
    have hdelivers := h.deliversBelow hrule hwrite w (List.pairwise_singleton _ _)
    obtain ⟨_, u, hu, hdown⟩ := (inherit_spec hrule hwrite w hid inherited).exists_result
    have heq : t = u := by
      refine eq_of_get? (hdelivers.parallel.size.trans hdown.parallel.size.symm)
        (hdelivers.parallel.trees.trans hdown.parallel.trees.symm) fun x => ?_
      by_cases hx : s.Below id x
      · obtain ⟨value, hvalue⟩ := Inherits.exists_of_below hx rule inherited
        rw [hdelivers.reached _ List.mem_cons_self x value hvalue,
          hdown.reached id List.mem_cons_self x value hvalue]
      · rw [hdelivers.other x fun p hp => by rwa [List.mem_singleton.mp hp],
          hdown.other x fun c hc => by rwa [List.mem_singleton.mp hc]]
    rw [heq]
    exact hu
  · intro h
    exact hwalk.result h [] t .done

/-! ## Assigned attributes -/

/-- Each statement of a subtree has got a value that is due to it, and nothing else has
changed. -/
structure Assigned (write : α → Node → Node) (Due : NodeId → α → Prop) (top : NodeId)
    (s t : Store) : Prop where
  below : ∀ x, s.Below top x → ∃ n value, s.get? x = some n ∧ Due x value ∧
    t.get? x = some (write value n)
  other : ∀ x, ¬ s.Below top x → t.get? x = s.get? x
  size : t.slots.size = s.slots.size
  trees : t.trees = s.trees

/-- Each statement gets what is handed down to it. -/
theorem HandsDown.assigned {inherited : α} {Due : NodeId → α → Prop}
    (hid : s.contains id = true) (h : HandsDown rule write inherited [id] s t)
    (hdue : ∀ x value, s.Inherits rule id inherited x value → Due x value) :
    Assigned write Due id s t where
  below x hx := by
    obtain ⟨value, hvalue⟩ := Inherits.exists_of_below hx rule inherited
    have hlive : s.contains x = true := by
      cases hx with
      | self => exact hid
      | under hp _ => exact contains_of_parentOf hp
    obtain ⟨n, hn⟩ := contains_iff.mp hlive
    refine ⟨n, value, hn, hdue x value hvalue, ?_⟩
    rw [h.reached id List.mem_cons_self x value hvalue, hn]
    rfl
  other x hx := h.other x fun c hc => by rwa [List.mem_singleton.mp hc]
  size := h.parallel.size
  trees := h.parallel.trees

/-- A walk gives each statement what is due to it, and so does a worklist in whatever order. -/
theorem inherit_assigned (hrule : ReadsLinksOnly rule) (hwrite : ∀ a, Node.KeepsLinks (write a))
    (w : s.Wired) (hid : s.contains id = true) {inherited : α} {Due : NodeId → α → Prop}
    (hdue : ∀ x value, s.Inherits rule id inherited x value → Due x value) :
    Succeeds (inherit rule write inherited id) s fun _ t => Assigned write Due id s t ∧
      ∀ u, WorklistRun rule write [(id, inherited)] s u ↔ u = t := by
  obtain ⟨_, t, hrun, ht⟩ := (inherit_spec hrule hwrite w hid inherited).exists_result
  refine Yields.of_eq hrun ⟨ht.assigned hid hdue, fun u => ?_⟩
  rw [worklistRun_iff hrule hwrite w hid inherited, hrun, Prod.mk.injEq, eq_self, true_and, eq_comm]

/-- The config of a statement below a top is true exactly when that is inherited and nothing on the
path denies it, and its status is the latest one that is inherited or declared on the path.  So
below a false config there is no true one, and below a status no earlier one.  Nothing but these
values changes, and every worklist that starts at the top ends in the same way. -/
theorem assigned_along_paths (o : s.Owned) (hid : s.contains id = true) :
    (∀ inherited, Succeeds (assignConfig id inherited) s fun _ t =>
      Assigned (fun config n => { n with config })
        (fun x value => value = true ↔
          inherited = true ∧ ∀ y, s.OnPath id x y → ¬ s.DeniesConfig y) id s t ∧
      (∀ x y n m, s.Below id x → s.Below x y → t.get? x = some n → t.get? y = some m →
        n.config = false → m.config = false) ∧
      ∀ u, WorklistRun configBelow (fun config n => { n with config }) [(id, inherited)] s u ↔
        u = t) ∧
    ∀ inherited, Succeeds (assignStatus id inherited) s fun _ t =>
      Assigned (fun status n => { n with status })
        (fun x value => s.IsLatest id x inherited value) id s t ∧
      (∀ x y n m, s.Below id x → s.Below x y → t.get? x = some n → t.get? y = some m →
        n.status.rank ≤ m.status.rank) ∧
      ∀ u, WorklistRun statusBelow (fun status n => { n with status }) [(id, inherited)] s u ↔
        u = t := by
  refine ⟨fun inherited => ?_, fun inherited => ?_⟩
  · refine (inherit_assigned readsLinksOnly_configBelow Node.keepsLinks_config o.wired hid
      fun _ _ h => h.config_iff o.wired).imp fun _ t ht => ?_
    obtain ⟨hassigned, hworks⟩ := ht
    refine ⟨hassigned, fun x y n m hx hy hn hm hfalse => ?_, hworks⟩
    obtain ⟨_, value, _, hvalue, hx'⟩ := hassigned.below x hx
    obtain ⟨_, value', _, hvalue', hy'⟩ := hassigned.below y (hx.trans hy)
    rw [hn] at hx'
    rw [hm] at hy'
    cases hx'
    cases hy'
    -- what denies the upper value is on the path to the lower one, too
    have hmono : value' = true → value = true := fun h =>
      hvalue.mpr ⟨(hvalue'.mp h).1, fun z hz => (hvalue'.mp h).2 z (hz.extend hy)⟩
    exact Bool.eq_false_iff.mpr fun h => Bool.eq_false_iff.mp hfalse (hmono h)
  · refine (inherit_assigned readsLinksOnly_statusBelow Node.keepsLinks_status o.wired hid
      fun _ _ h => h.isLatest o.wired).imp fun _ t ht => ?_
    obtain ⟨hassigned, hworks⟩ := ht
    refine ⟨hassigned, fun x y n m hx hy hn hm => ?_, hworks⟩
    obtain ⟨_, latest, _, hlatest, hx'⟩ := hassigned.below x hx
    obtain ⟨_, lower, _, hlower, hy'⟩ := hassigned.below y (hx.trans hy)
    rw [hn] at hx'
    rw [hm] at hy'
    cases hx'
    cases hy'
    exact hlatest.rank_le hlower hy

end StoreM

/-! ### A container without configuration -/

namespace Store

/-- A container with a false config and an obsolete leaf. -/
def retired : Store :=
  let said (k : Keyword) (text : String) : Node :=
    { sampleNode k with element := { (sampleNode k).element with value := some text } }
  let empty : Store := {}
  let s := ((((empty.addTree none .implement).2.alloc (sampleNode .container)).2.alloc
    (said .config "false")).2.alloc (sampleNode .leaf)).2.alloc (said .status "obsolete")
  (StoreM.appendChild ⟨2⟩ ⟨3⟩ (StoreM.appendChild ⟨0⟩ ⟨2⟩ (StoreM.appendChild ⟨0⟩ ⟨1⟩ s.2).2).2).2

/-- The sample store satisfies the invariant. -/
theorem retired_owned : retired.Owned := by
  refine Mutation.owned (m := .appendChild ⟨2⟩ ⟨3⟩) ?_
  refine Mutation.owned (m := .appendChild ⟨0⟩ ⟨2⟩) ?_
  refine Mutation.owned (m := .appendChild ⟨0⟩ ⟨1⟩) ?_
  exact ((((Owned.empty.addTree none .implement).alloc rfl rfl).alloc rfl rfl).alloc rfl rfl).alloc
    rfl rfl

end Store

/-- The obsolete leaf below a false config gets both values. -/
theorem StoreM.assigned_along_paths_retired :
    Store.retired.Owned ∧ Store.retired.contains ⟨0⟩ = true ∧
    (∃ t n, assignConfig ⟨0⟩ true Store.retired = (.ok ⟨⟩, t) ∧ t.get? ⟨2⟩ = some n ∧
      n.config = false) ∧
    ∃ t n, assignStatus ⟨0⟩ .current Store.retired = (.ok ⟨⟩, t) ∧ t.get? ⟨2⟩ = some n ∧
      n.status = .obsolete := by
  have hlive : Store.retired.contains ⟨0⟩ = true := by decide +kernel
  have hleaf : Store.retired.Below ⟨0⟩ ⟨2⟩ := .under (by decide +kernel) .self
  obtain ⟨hconfig, hstatus⟩ := assigned_along_paths Store.retired_owned hlive
  refine ⟨Store.retired_owned, hlive, ?_, ?_⟩
  · obtain ⟨_, t, ht, hassigned, -⟩ := (hconfig true).exists_result
    obtain ⟨n, value, -, hvalue, hn⟩ := hassigned.below ⟨2⟩ hleaf
    have hdenies : Store.retired.DeniesConfig ⟨0⟩ :=
      Store.declaresConfigFalse_iff.mp (by decide +kernel)
    exact ⟨t, _, ht, hn, Bool.eq_false_iff.mpr fun h => (hvalue.mp h).2 ⟨0⟩ ⟨.self, hleaf⟩ hdenies⟩
  · obtain ⟨_, t, ht, hassigned, -⟩ := (hstatus .current).exists_result
    obtain ⟨n, latest, -, hlatest, hn⟩ := hassigned.below ⟨2⟩ hleaf
    have hrank := hlatest.declared_le ⟨2⟩ .obsolete ⟨hleaf, .self⟩ (by decide +kernel)
    refine ⟨t, _, ht, hn, ?_⟩
    cases latest with
    | obsolete => rfl
    | _ => simp [Status.rank] at hrank

end StatementForest
