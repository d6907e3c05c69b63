import StatementForest.Proofs.Store.TreesAndTops

/-!
# Stores that only grow

While trees are built and linked no statement leaves the store, and none changes
its parent.  New statements are put below others at once, so no step leaves a
statement without a parent behind.

Checks do even less: they touch no link, and add findings to the log.

Main results:

- Theorem `Store.Extends.trans`: steps that extend a store can be put together.
- Theorem `OnlyReports.bind`, `OnlyReports.forM`: the same for building steps that touch no link,
  which moreover fail only in order to stop.
- Theorem `OnlyReports.report`: recording a finding about a live statement is such a step.
- Theorem `ExtendsStore.bind`, `OnlyExtends.forM`: what extends the store can be put together.
-/

namespace StatementForest
namespace Store

variable {s t u : Store} {x : NodeId}

/-- The second store satisfies the invariant and holds the statements of the first
one at their places.  All others stand below some statement. -/
structure Extends (s t : Store) : Prop where
  owned : t.Owned
  contains : ∀ x, s.contains x = true → t.contains x = true
  parentOf : ∀ x, s.contains x = true → t.parentOf x = s.parentOf x
  faceOf : ∀ x, s.contains x = true → t.faceOf x = s.faceOf x
  old_of_parentless : ∀ x, t.contains x = true → t.parentOf x = none → s.contains x = true
  tree : ∀ r, (t.tree? r).map Tree.face = (s.tree? r).map Tree.face

namespace Extends

theorem refl (o : s.Owned) : Extends s s :=
  ⟨o, fun _ h => h, fun _ _ => rfl, fun _ _ => rfl, fun _ h _ => h, fun _ => rfl⟩

theorem trans (h : Extends s t) (h' : Extends t u) : Extends s u where
  owned := h'.owned
  contains x hx := h'.contains x (h.contains x hx)
  parentOf x hx := (h'.parentOf x (h.contains x hx)).trans (h.parentOf x hx)
  faceOf x hx := (h'.faceOf x (h.contains x hx)).trans (h.faceOf x hx)
  old_of_parentless x hx hnone := by
    have hxt := h'.old_of_parentless x hx hnone
    rw [h'.parentOf x hxt] at hnone
    exact h.old_of_parentless x hxt hnone
  tree r := (h'.tree r).trans (h.tree r)

/-- What does not touch the links extends a store. -/
theorem of_parallel (o : s.Owned) (h : Parallel s t) : Extends s t where
  owned := o.of_parallel h
  contains x hx := by rw [h.contains]; exact hx
  parentOf x _ := h.parentOf x
  faceOf x _ := h.faceOf x
  old_of_parentless x hx _ := by rw [h.contains] at hx; exact hx
  tree r := by simp only [tree?, h.trees]

/-- A new statement below a parent extends a store. -/
theorem of_fresh {n : Node} {parent : NodeId} (ot : t.Owned)
    (h : Relinked (s.alloc n).2 t s.fresh (some parent)) : Extends s t where
  owned := ot
  contains x hx := by
    rw [h.contains]
    obtain ⟨m, hm⟩ := contains_iff.mp hx
    exact contains_iff.mpr ⟨m, (grown_alloc s n).get?_of_some hm⟩
  parentOf x hx := by
    have hne := ne_fresh_of_contains hx
    rw [h.parentOf_of_ne x hne, parentOf_alloc_of_ne n hne]
  faceOf x hx := by
    rw [h.faceOf, Store.faceOf, Store.faceOf, get?_alloc_of_ne s n (ne_fresh_of_contains hx)]
  old_of_parentless x hx hnone := by
    have hne : x ≠ s.fresh := by
      rintro rfl
      rw [h.parentOf_self] at hnone
      cases hnone
    rw [h.contains, Store.contains, get?_alloc_of_ne s n hne] at hx
    exact hx
  tree r := by
    simp only [tree?, h.trees]
    rfl

/-- A change of trees that keeps what they are extends a store. -/
theorem of_slots_eq (ot : t.Owned) (hslots : t.slots = s.slots)
    (htree : ∀ r, (t.tree? r).map Tree.face = (s.tree? r).map Tree.face) : Extends s t := by
  have hget : ∀ x, t.get? x = s.get? x := fun x => by rw [get?, get?, hslots]
  refine ⟨ot, fun x hx => ?_, fun x _ => ?_, fun x _ => ?_, fun x hx _ => ?_, htree⟩
  · rw [Store.contains, hget]
    exact hx
  · rw [Store.parentOf, Store.parentOf, hget]
  · rw [Store.faceOf, Store.faceOf, hget]
  · rw [Store.contains, hget] at hx
    exact hx

/-- An extended store has the same tops. -/
theorem topOf (h : Extends s t) (r : RootId) : t.topOf r = s.topOf r := by
  have hr := congrArg (Option.map fun p => p.2.1) (h.tree r)
  rw [Option.map_map, Option.map_map] at hr
  rw [topOf_eq, topOf_eq]
  exact congrArg Option.join hr

/-- A live statement of the first store is one of the second, and is what it was. -/
theorem exists_get? (h : Extends s t) {n : Node} (hn : s.get? x = some n) :
    ∃ m, t.get? x = some m ∧ m.face = n.face := by
  have hx := contains_iff.mpr ⟨n, hn⟩
  obtain ⟨m, hm⟩ := contains_iff.mp (h.contains x hx)
  refine ⟨m, hm, ?_⟩
  have hface := h.faceOf x hx
  rw [Store.faceOf, Store.faceOf, hm, hn] at hface
  exact Option.some.inj hface

end Extends
end Store

/-! ## Logs that only grow -/

namespace FindingLog

variable {log log' : FindingLog}

/-- The second log has the policy of the first one, and its findings come first. -/
structure Grows (log log' : FindingLog) : Prop where
  policy : log'.policy = log.policy
  entries : log.entries <+: log'.entries

theorem Grows.refl (log : FindingLog) : Grows log log := ⟨rfl, List.prefix_refl _⟩

theorem Grows.trans {log'' : FindingLog} (h : Grows log log') (h' : Grows log' log'') :
    Grows log log'' := ⟨h'.policy.trans h.policy, h.entries.trans h'.entries⟩

/-- What is in a log after adding a finding was in it before, or is the finding. -/
theorem mem_add (log : FindingLog) {f g : Finding} (h : g ∈ (log.add f).1.entries) :
    g ∈ log.entries ∨ g = f := by
  unfold add at h
  split at h
  · exact .inl h
  · exact (List.mem_append.mp h).imp_right List.mem_singleton.mp

/-- Adding a finding lets a log grow. -/
theorem grows_add (log : FindingLog) (f : Finding) : Grows log (log.add f).1 := by
  unfold add
  split
  · exact Grows.refl log
  · exact ⟨rfl, List.prefix_append _ _⟩

end FindingLog

/-! ## Steps that touch no link -/

open Store

/-- The only failure of a build: a severity is set at which to stop, and a finding
has reached it. -/
def Stops (env : Environment) (e : Failure) : Prop :=
  env.stopAt.isSome = true ∧ ∃ f, e = .failFast f

/-- Every finding of the log that is about a statement is about one that exists. -/
def BuildState.Anchored (state : BuildState) : Prop :=
  ∀ f ∈ state.log.entries, ∀ x, f.node? = some x → state.store.contains x = true

/-- A building step that touches no link, only adds to the log, and fails only in order
to stop.  What it adds to the log is about statements that exist. -/
def OnlyReports (env : Environment) {α : Type} (m : BuildM α) (state : BuildState) : Prop :=
  Yields (fun e _ => Stops env e) m state fun _ t =>
    Parallel state.store t.store ∧ FindingLog.Grows state.log t.log ∧
      (state.Anchored → t.Anchored)

namespace Reading

variable {state : BuildState}

theorem node_apply {id : NodeId} {n : Node} (h : state.store.get? id = some n) :
    BuildM.node id state = (.ok n, state) := by
  rw [BuildM.node, onStore_apply, StoreM.node_apply h]

theorem tree_apply {r : RootId} {tree : Tree} (h : state.store.tree? r = some tree) :
    BuildM.onStore (StoreM.tree r) state = (.ok tree, state) := by
  rw [onStore_apply, StoreM.tree_apply h]

theorem childrenOfKeyword_apply {id : NodeId} {n : Node}
    (h : state.store.get? id = some n) (k : Keyword) :
    BuildM.onStore (StoreM.childrenOfKeyword id k) state =
      (.ok (state.store.childrenOfKeyword id k), state) := by
  rw [onStore_apply, StoreM.childrenOfKeyword_apply h]

theorem childrenWithKey_apply {id : NodeId} {n : Node}
    (h : state.store.get? id = some n) (key : Key) :
    BuildM.onStore (StoreM.childrenWithKey id key) state =
      (.ok (state.store.childrenWithKey id key), state) := by
  rw [onStore_apply, StoreM.childrenWithKey_apply h]

theorem store_apply : BuildM.store state = (.ok state.store, state) := rfl

end Reading

namespace OnlyReports

variable {env : Environment} {α β : Type} {state : BuildState}

theorem pure {a : α} : OnlyReports env (pure a) state :=
  ⟨Parallel.refl state.store, FindingLog.Grows.refl state.log, id⟩

/-- What follows a step that touches no link starts from the same links. -/
theorem bind {m : BuildM α} {f : α → BuildM β} (h : OnlyReports env m state)
    (hf : ∀ a t, Parallel state.store t.store → OnlyReports env (f a) t) :
    OnlyReports env (m >>= f) state := by
  apply Yields.bind h
  intro a t ⟨ht, hlog, hanchored⟩
  apply Yields.imp (hf a t ht)
  intro b u ⟨hu, hlog', hanchored'⟩
  exact ⟨ht.trans hu, hlog.trans hlog', hanchored' ∘ hanchored⟩

/-- A step that only reads leaves the rest of the operation to be looked at. -/
theorem bind_of_eq {m : BuildM α} {f : α → BuildM β} {a : α} (hm : m state = (.ok a, state))
    (hf : OnlyReports env (f a) state) : OnlyReports env (m >>= f) state :=
  Yields.bind_of_eq hm hf

/-- What follows a look at a live statement knows the statement. -/
theorem bind_node {id : NodeId} {f : Node → BuildM β} (hid : state.store.contains id = true)
    (hf : ∀ n, state.store.get? id = some n → OnlyReports env (f n) state) :
    OnlyReports env (BuildM.node id >>= f) state := by
  obtain ⟨n, hn⟩ := contains_iff.mp hid
  exact bind_of_eq (Reading.node_apply hn) (hf n hn)

/-- What follows on reading the children of a keyword only reports when it does so with these. -/
theorem bind_childrenOfKeyword {id : NodeId} {k : Keyword} {f : List NodeId → BuildM β}
    (hid : state.store.contains id = true)
    (hf : OnlyReports env (f (state.store.childrenOfKeyword id k)) state) :
    OnlyReports env (BuildM.onStore (StoreM.childrenOfKeyword id k) >>= f) state := by
  obtain ⟨n, hn⟩ := contains_iff.mp hid
  exact bind_of_eq (Reading.childrenOfKeyword_apply hn k) hf

/-- An operation of the store that succeeds and touches no link. -/
theorem onStore {m : StoreM α} (h : Succeeds m state.store fun _ t => Parallel state.store t) :
    OnlyReports env (BuildM.onStore m) state := by
  have h' : Yields (fun e t => Stops env e) m state.store _ := Yields.of_succeeds h
  apply (Yields.onStore (E := fun e _ => Stops env e) h').imp
  intro _ t ⟨ht, hlog⟩
  refine ⟨ht, hlog ▸ FindingLog.Grows.refl state.log, fun hanchored f hf x hx => ?_⟩
  rw [hlog] at hf
  rw [ht.contains]
  exact hanchored f hf x hx

/-- A loop touches no link when no round does, from whatever store it starts. -/
theorem forM {f : α → BuildM PUnit} {items : List α}
    (hstep : ∀ item ∈ items, ∀ t : BuildState, Parallel state.store t.store →
      OnlyReports env (f item) t) : OnlyReports env (items.forM f) state := by
  refine Yields.forM_of_invariant (I := fun t : BuildState =>
    Parallel state.store t.store ∧ FindingLog.Grows state.log t.log ∧
      (state.Anchored → t.Anchored))
    ⟨Parallel.refl state.store, FindingLog.Grows.refl state.log, id⟩ ?_
  intro item hmem t ⟨ht, hlog, hanchored⟩
  apply Yields.imp (hstep item hmem t ht)
  intro _ u ⟨hu, hlog', hanchored'⟩
  exact ⟨ht.trans hu, hlog.trans hlog', hanchored' ∘ hanchored⟩

/-- A change of a live statement that does not touch its links. -/
theorem update {id : NodeId} (hid : state.store.contains id = true) {f : Node → Node}
    (hf : Node.KeepsLinks f) : OnlyReports env (BuildM.update id f) state := by
  obtain ⟨n, hn⟩ := contains_iff.mp hid
  exact onStore (Yields.of_eq (StoreM.update_apply hn f) (parallel_update hf id))

/-! ### Reporting -/

/-- Keeping a finding with its statement touches no link. -/
theorem parallel_attachFinding (s : Store) (f : Finding) : Parallel s (s.attachFinding f) := by
  unfold Store.attachFinding
  split
  · refine parallel_update ⟨?_, ?_, ?_, ?_⟩ _ <;> exact fun _ => rfl
  · exact Parallel.refl s

/-- Recording a finding touches no link, and fails only in order to stop.  Nothing but
the finding comes into the log. -/
theorem report_outcome (f : Finding) :
    Yields (fun e _ => Stops env e) (BuildM.report env f) state fun _ t =>
      Parallel state.store t.store ∧ FindingLog.Grows state.log t.log ∧
        ∀ g ∈ t.log.entries, g ∈ state.log.entries ∨ g = f := by
  rw [BuildM.report]
  apply Yields.bind_get
  rcases state.log.severityOf f with _ | severity
  · exact Yields.pure ⟨Parallel.refl _, FindingLog.Grows.refl _, fun _ hg => .inl hg⟩
  apply Yields.bind_of_eq (modify_apply _ state)
  by_cases hstop : env.stopAt.any severity.reaches = true
  · rw [if_pos hstop]
    refine Yields.throw ⟨?_, f, rfl⟩
    rcases h : env.stopAt with _ | threshold
    · rw [h] at hstop
      cases hstop
    · rfl
  · rw [if_neg hstop]
    exact Yields.pure ⟨parallel_attachFinding _ f, state.log.grows_add f,
      fun _ hg => state.log.mem_add hg⟩

/-- Recording a finding that is about a live statement, or about none. -/
theorem report {f : Finding} (hf : ∀ x, f.node? = some x → state.store.contains x = true) :
    OnlyReports env (BuildM.report env f) state := by
  refine Yields.imp (report_outcome f) fun _ t ⟨ht, hlog, hmem⟩ => ⟨ht, hlog, ?_⟩
  intro hanchored g hg x hx
  rw [ht.contains]
  obtain hg | rfl := hmem g hg
  · exact hanchored g hg x hx
  · exact hf x hx

/-- Recording a finding about a live statement. -/
theorem reportOn {id : NodeId} (hid : state.store.contains id = true) (kind : FindingKind)
    (message : String) : OnlyReports env (BuildM.reportOn env id kind message) state :=
  bind_node hid fun _ _ => report fun _ hx => Option.some.inj hx ▸ hid

end OnlyReports

/-! ## Steps that extend the store -/

/-- A building step that extends the store and fails only in order to stop.  `Q` holds
of the result and of the store at the end. -/
def ExtendsStore (env : Environment) {α : Type} (m : BuildM α) (state : BuildState)
    (Q : α → Store → Prop) : Prop :=
  Yields (fun e _ => Stops env e) m state fun a t => Extends state.store t.store ∧ Q a t.store

/-- A building step after which nothing but the extended store is known. -/
def OnlyExtends (env : Environment) {α : Type} (m : BuildM α) (state : BuildState) : Prop :=
  ExtendsStore env m state fun _ _ => True

namespace ExtendsStore

variable {env : Environment} {α β : Type} {state : BuildState} {Q : α → Store → Prop}

/-- Two steps extend the store one after the other. -/
theorem bind {m : BuildM α} {f : α → BuildM β} {R : β → Store → Prop}
    (h : ExtendsStore env m state Q)
    (hf : ∀ a t, Extends state.store t.store → Q a t.store → ExtendsStore env (f a) t R) :
    ExtendsStore env (m >>= f) state R := by
  apply Yields.bind h
  intro a t ⟨ht, hq⟩
  apply Yields.imp (hf a t ht hq)
  intro b u ⟨hu, hr⟩
  exact ⟨ht.trans hu, hr⟩

/-- A step that only reads leaves the rest of the operation to be looked at. -/
theorem bind_of_eq {m : BuildM α} {f : α → BuildM β} {R : β → Store → Prop} {a : α}
    (hm : m state = (.ok a, state)) (hf : ExtendsStore env (f a) state R) :
    ExtendsStore env (m >>= f) state R :=
  Yields.bind_of_eq hm hf

/-- Returning a value extends the store by nothing. -/
theorem pure {a : α} (o : state.store.Owned) (h : Q a state.store) :
    ExtendsStore env (pure a) state Q := ⟨Extends.refl o, h⟩

/-- An operation of the store that succeeds. -/
theorem onStore {m : StoreM α}
    (h : Succeeds m state.store fun a t => Extends state.store t ∧ Q a t) :
    ExtendsStore env (BuildM.onStore m) state Q := by
  have h' : Yields (fun e t => Stops env e) m state.store _ := Yields.of_succeeds h
  exact (Yields.onStore (E := fun e _ => Stops env e) h').imp fun _ _ ht => ht.1

end ExtendsStore

namespace OnlyExtends

variable {env : Environment} {α β : Type} {state : BuildState}

/-- What touches no link extends a store that satisfies the invariant. -/
theorem of_onlyReports {m : BuildM α} (o : state.store.Owned) (h : OnlyReports env m state) :
    OnlyExtends env m state :=
  Yields.imp h fun _ _ ht => ⟨Extends.of_parallel o ht.1, trivial⟩

/-- Returning a value changes nothing. -/
theorem pure {a : α} (o : state.store.Owned) : OnlyExtends env (pure a) state :=
  ExtendsStore.pure o trivial

/-- What follows a step that only extends the store starts from an extended one. -/
theorem bind {m : BuildM α} {f : α → BuildM β} (h : OnlyExtends env m state)
    (hf : ∀ a t, Extends state.store t.store → OnlyExtends env (f a) t) :
    OnlyExtends env (m >>= f) state :=
  ExtendsStore.bind h fun a t ht _ => hf a t ht

/-- What follows a look at a live statement knows the statement. -/
theorem bind_node {id : NodeId} {f : Node → BuildM β} (hid : state.store.contains id = true)
    (hf : ∀ n, state.store.get? id = some n → OnlyExtends env (f n) state) :
    OnlyExtends env (BuildM.node id >>= f) state := by
  obtain ⟨n, hn⟩ := contains_iff.mp hid
  exact ExtendsStore.bind_of_eq (Reading.node_apply hn) (hf n hn)

/-- What follows on reading the children of a keyword only extends when it does so with these. -/
theorem bind_childrenOfKeyword {id : NodeId} {k : Keyword} {f : List NodeId → BuildM β}
    (hid : state.store.contains id = true)
    (hf : OnlyExtends env (f (state.store.childrenOfKeyword id k)) state) :
    OnlyExtends env (BuildM.onStore (StoreM.childrenOfKeyword id k) >>= f) state := by
  obtain ⟨n, hn⟩ := contains_iff.mp hid
  exact ExtendsStore.bind_of_eq (Reading.childrenOfKeyword_apply hn k) hf

/-- A loop extends the store when each round does, from whatever store it starts. -/
theorem forM {f : α → BuildM PUnit} {items : List α} (o : state.store.Owned)
    (hstep : ∀ item ∈ items, ∀ t : BuildState, Extends state.store t.store →
      OnlyExtends env (f item) t) : OnlyExtends env (items.forM f) state := by
  have h : Yields (fun e _ => Stops env e) (items.forM f) state fun _ t =>
      Extends state.store t.store := by
    refine Yields.forM_of_invariant (I := fun t : BuildState => Extends state.store t.store)
      (Extends.refl o) ?_
    intro item hmem t ht
    apply Yields.imp (hstep item hmem t ht)
    intro _ u ⟨hu, _⟩
    exact ht.trans hu
  exact h.imp fun _ _ ht => ⟨ht, trivial⟩

/-- A step that only extends the store still does so without its result. -/
theorem discard {m : BuildM α} (h : OnlyExtends env m state) :
    OnlyExtends env (Functor.discard m) state :=
  Yields.discard (P := fun t : BuildState => Extends state.store t.store ∧ True) h

/-- A report extends the store by nothing. -/
theorem report (o : state.store.Owned) (f : Finding) :
    OnlyExtends env (BuildM.report env f) state :=
  Yields.imp (OnlyReports.report_outcome f) fun _ _ ht => ⟨Extends.of_parallel o ht.1, trivial⟩

/-- Reporting findings extends the store by nothing. -/
theorem reportAll (o : state.store.Owned) (findings : List Finding) :
    OnlyExtends env (BuildM.reportAll env findings) state :=
  forM o fun f _ _ ht => report ht.owned f

/-- A report about a statement extends the store by nothing. -/
theorem reportOn {id : NodeId} (o : state.store.Owned)
    (hid : state.store.contains id = true) (kind : FindingKind) (message : String) :
    OnlyExtends env (BuildM.reportOn env id kind message) state :=
  of_onlyReports o (OnlyReports.reportOn hid kind message)

end OnlyExtends
end StatementForest
