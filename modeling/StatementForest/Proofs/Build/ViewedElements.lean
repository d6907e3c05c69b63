import StatementForest.Proofs.Build.ChildCoverage

/-!
# Statements view their documents

When nothing asks to stop, every document is built.  A live statement is then what its
element stands for, its children view children of that element, and every finding that
is about a statement is about one that exists.  Merging keeps all of this.

Main results:

- Theorem `SchemaDocument.build_builtSoundly`: a document is built into a sound state, in which
  every statement is elaborated.
- Theorem `Sound.absorb`: sound states are merged into a sound one.
- Theorem `Schema.merge_eq_gather`: the merged state is put together from what is built
  for each document.
-/

namespace StatementForest

open Store

/-- Every live statement is what its element stands for, and its children view children of
the element. -/
structure Store.Faithful (suppliers : Suppliers) (s : Store) : Prop where
  variant : ∀ x n, s.get? x = some n → suppliers.Makes n.element n.variant
  children : ∀ x n, s.get? x = some n → ∀ c ∈ n.children,
    ∃ child ∈ n.element.children, s.elementOf c = some child

/-- What is known of a state that was built for some documents. -/
structure Sound (suppliers : Suppliers) (documents : List SchemaDocument) (state : BuildState) :
    Prop where
  treesOf : TreesOf documents state.store
  faithful : state.store.Faithful suppliers
  /-- Only models have a top. -/
  crowned : ∀ i x, state.store.topOf ⟨i⟩ = some x →
    ∃ d, documents[i]? = some d ∧ d.isModel = true
  anchored : state.Anchored

variable {env : Environment} {suppliers : Suppliers} {policy : SeverityPolicy}
  {documents documents' : List SchemaDocument} {s t : Store} {a b : BuildState}

/-- A store without statements is faithful. -/
theorem Store.faithful_of_empty (h : ∀ x, s.get? x = none) : s.Faithful suppliers where
  variant x n hn := by rw [h x] at hn; cases hn
  children x n hn := by rw [h x] at hn; cases hn

/-! ## Merging -/

/-- A lookup in a merged store finds a statement of one of the two parts. -/
theorem Store.get?_absorb_cases {x : NodeId} {n : Node} (h : (s.absorb t).get? x = some n) :
    x.index < s.slots.size ∧ s.get? x = some n ∨
      ∃ y m, x = y.shift s.slots.size ∧ t.get? y = some m ∧
        n = m.shift s.slots.size s.trees.size := by
  obtain hx | ⟨y, rfl⟩ := x.lt_or_shift s.slots.size
  · rw [get?_absorb_left hx] at h
    exact .inl ⟨hx, h⟩
  · rw [get?_absorb_right, Option.map_eq_some_iff] at h
    obtain ⟨m, hm, rfl⟩ := h
    exact .inr ⟨y, m, rfl, hm, rfl⟩

/-- Merging faithful stores leaves a faithful one. -/
theorem Store.Faithful.absorb (w : s.Wired) (h : s.Faithful suppliers)
    (h' : t.Faithful suppliers) : (s.absorb t).Faithful suppliers where
  variant x n hn := by
    obtain ⟨-, hn⟩ | ⟨y, m, -, hm, rfl⟩ := get?_absorb_cases hn
    · exact h.variant x n hn
    · exact h'.variant y m hm
  children x n hn c hc := by
    obtain ⟨-, hn⟩ | ⟨y, m, -, hm, rfl⟩ := get?_absorb_cases hn
    · obtain ⟨child, hmem, hchild⟩ := h.children x n hn c hc
      rw [← childrenOf_of_get? hn] at hc
      have hlt := lt_size_of_contains (w.contains_child hc)
      exact ⟨child, hmem, by rw [elementOf, faceOf_absorb_left hlt, ← elementOf, hchild]⟩
    · obtain ⟨d, hd, rfl⟩ := List.mem_map.mp hc
      obtain ⟨child, hmem, hchild⟩ := h'.children y m hm d hd
      exact ⟨child, hmem, by rw [elementOf, faceOf_absorb_right, ← elementOf, hchild]⟩

/-- Of several findings those are added that are not suppressed. -/
theorem FindingLog.mem_addAll {log : FindingLog} {findings : List Finding} {g : Finding} :
    g ∈ (log.addAll findings).entries ↔
      g ∈ log.entries ∨ g ∈ findings ∧ log.policy.suppresses g.kind = false := by
  induction findings generalizing log with
  | nil => simp [addAll]
  | cons f rest ih =>
    have hadd : g ∈ (log.add f).1.entries ↔
        g ∈ log.entries ∨ g = f ∧ log.policy.suppresses g.kind = false := by
      constructor
      · intro hg
        rw [add] at hg
        split at hg
        · exact .inl hg
        · next hnew =>
          rw [Bool.or_eq_true, not_or, Bool.not_eq_true] at hnew
          refine (List.mem_append.mp hg).imp_right fun hg => ?_
          rw [List.mem_singleton.mp hg]
          exact ⟨rfl, hnew.1⟩
      · rintro (hg | ⟨rfl, hshown⟩)
        · exact (log.grows_add f).entries.subset hg
        · exact log.records_add g (by rwa [policy_add])
    have hrest := @ih (log.add f).1
    rw [policy_add, hadd] at hrest
    rw [List.mem_cons, or_and_right, ← or_assoc]
    exact hrest

/-- A merged log holds the findings of the first log, and those of the second one, shifted. -/
theorem BuildState.mem_absorb {g : Finding} :
    g ∈ (a.absorb b).log.entries ↔ g ∈ a.log.entries ∨
      (∃ g' ∈ b.log.entries, g = g'.shift a.store.slots.size) ∧
        a.log.policy.suppresses g.kind = false := by
  rw [absorb, FindingLog.mem_addAll, List.mem_map]
  simp only [eq_comm]

/-- The statement of a shifted finding is shifted. -/
theorem Finding.node?_shift (offset : Nat) (g : Finding) :
    (g.shift offset).node? = g.node?.map (·.shift offset) := by
  obtain ⟨subject, kind, message⟩ := g
  cases subject <;> rfl

/-- In merged states the findings are about statements that exist. -/
theorem BuildState.Anchored.absorb (h : a.Anchored) (h' : b.Anchored) :
    (a.absorb b).Anchored := by
  intro g hg x hx
  obtain hg | ⟨⟨g', hg', rfl⟩, -⟩ := mem_absorb.mp hg
  · have hlive := h g hg x hx
    exact (contains_absorb_left (lt_size_of_contains hlive)).trans hlive
  · rw [Finding.node?_shift, Option.map_eq_some_iff] at hx
    obtain ⟨y, hy, rfl⟩ := hx
    exact (contains_absorb_right y).trans (h' g' hg' y hy)

/-- Sound states are merged into a sound one. -/
theorem Sound.absorb (h : Sound suppliers documents a) (h' : Sound suppliers documents' b) :
    Sound suppliers (documents ++ documents') (a.absorb b) where
  treesOf := h.treesOf.absorb h'.treesOf
  faithful := h.faithful.absorb h.treesOf.owned.wired h'.faithful
  crowned i x hx := by
    have hsize := h.treesOf.size_trees
    by_cases hi : i < a.store.trees.size
    · have htop : a.store.topOf ⟨i⟩ = some x := by
        rw [← hx, BuildState.absorb, topOf, topOf, tree?_absorb_left hi]
      rw [List.getElem?_append_left (by omega)]
      exact h.crowned i x htop
    · obtain ⟨j, rfl⟩ : ∃ j, i = j + a.store.trees.size := ⟨i - a.store.trees.size, by omega⟩
      have htop : (a.store.absorb b.store).topOf (RootId.shift ⟨j⟩ a.store.trees.size) =
          some x := hx
      rw [topOf_absorb_right, Option.map_eq_some_iff] at htop
      obtain ⟨y, hy, -⟩ := htop
      rw [List.getElem?_append_right (by omega), hsize, Nat.add_sub_cancel]
      exact h'.crowned j y hy
  anchored := h.anchored.absorb h'.anchored

/-! ## Documents -/

namespace SchemaDocument

/-- What is known of a state that was built for one document. -/
structure BuiltSoundly (env : Environment) (policy : SeverityPolicy) (d : SchemaDocument)
    (state : BuildState) : Prop where
  sound : Sound env.suppliers [d] state
  elaborated : ∀ x, state.store.contains x = true → state.Elaborated env x
  /-- Every model has a top. -/
  crowned : d.isModel = true → ∃ x, state.store.topOf ⟨0⟩ = some x
  policy : state.log.policy = policy

/-- The name of a model is a keyword, so a statement can be made of it. -/
theorem isStatement_of_isModel {d : SchemaDocument} (h : d.isModel = true) :
    d.element.isStatement = true := by
  rw [isModel, Bool.or_eq_true, beq_iff_eq, beq_iff_eq] at h
  obtain h | h := h <;> rw [Element.isStatement, Element.isQualified, Element.isCore, h] <;> rfl

/-- The tree of a document is made, and stays without statements when there is only
something to complain about. -/
theorem report_sprout_builtSoundly (hstop : env.stopAt = none) {d : SchemaDocument}
    (hmodel : ¬ d.isModel = true) {f : Finding} (hf : f.node? = none) :
    Succeeds (BuildM.report env f) { store := d.sprout, log := FindingLog.empty policy }
      fun _ t => d.BuiltSoundly env policy t := by
  have hnode : ∀ x, f.node? = some x → d.sprout.contains x = true := fun x hx => by
    rw [hf] at hx
    cases hx
  refine (BuildM.report_recordsFindings hstop hnode).imp fun _ t ht => ?_
  have hblank : ∀ x, t.store.get? x = none := by
    intro x
    have hnone := ht.parallel.contains x
    rwa [Store.contains, Store.contains, get?_sprout, Option.isSome_none,
      Option.isSome_eq_false_iff, Option.isNone_iff_eq_none] at hnone
  refine ⟨⟨?_, faithful_of_empty hblank, fun i x hx => ?_, ht.anchored fun g hg => by cases hg⟩,
    fun x _ n hn => ?_, fun h => absurd h hmodel, ht.log.policy⟩
  · have hsprout := d.treesOf_sprout
    exact hsprout.of_extends (Extends.of_parallel hsprout.owned ht.parallel)
  · have hlive := contains_of_rootOf ((d.treesOf_sprout.owned.of_parallel
      ht.parallel).rooted.rootOf_top _ x hx)
    rw [ht.parallel.contains, Store.contains, get?_sprout] at hlive
    cases hlive
  · rw [hblank x] at hn
    cases hn

/-- Only the top of the tree of a document stands there before it is populated. -/
theorem plant_blank (d : SchemaDocument) {r : Resolution} :
    Succeeds (StoreM.setTop ⟨0⟩ d.sprout.fresh)
      (d.sprout.alloc (StoreM.freshNode d.element r ⟨0⟩)).2
      fun _ t => TreesOf [d] t ∧ t.Blank d.sprout.fresh d.element r.variant ∧
        ∀ x, t.contains x = true → x = d.sprout.fresh := by
  have hself := get?_alloc_fresh d.sprout (StoreM.freshNode d.element r ⟨0⟩)
  have hplant := d.plant_succeeds (r := r)
  have htree : (d.sprout.alloc (StoreM.freshNode d.element r ⟨0⟩)).2.tree? ⟨0⟩ =
      some { source := d.source, conformance := d.conformance } := tree?_sprout d 0
  have hset : StoreM.setTop ⟨0⟩ d.sprout.fresh
      (d.sprout.alloc (StoreM.freshNode d.element r ⟨0⟩)).2 = (.ok (), _) :=
    StoreM.updateTree_apply htree _
  unfold Succeeds Yields at hplant ⊢
  rw [hset] at hplant ⊢
  refine ⟨hplant.1, ⟨_, hself, rfl, rfl, rfl⟩, fun x hx => ?_⟩
  by_contra hne
  have hlive : (d.sprout.alloc (StoreM.freshNode d.element r ⟨0⟩)).2.contains x = true := hx
  rw [Store.contains, get?_alloc_of_ne _ _ hne, get?_sprout] at hlive
  cases hlive

/-- The tree of one document has a top when it has statements. -/
theorem exists_topOf {d : SchemaDocument} {s : Store} (h : TreesOf [d] s) {x : NodeId}
    (hx : s.contains x = true) : ∃ top, s.topOf ⟨0⟩ = some top := by
  obtain ⟨⟨i⟩, top, htop, -⟩ := h.exists_top hx
  obtain ⟨tree, htree, -⟩ := Option.bind_eq_some_iff.mp htop
  have hlt := lt_size_of_tree? htree
  rw [h.size_trees, List.length_singleton, Nat.lt_one_iff] at hlt
  cases hlt
  exact ⟨top, htop⟩

/-- A document is built into a sound state when nothing asks to stop. -/
theorem populate_builtSoundly (hstop : env.stopAt = none) (d : SchemaDocument) :
    Succeeds (populate env d) { log := FindingLog.empty policy } fun _ t =>
      d.BuiltSoundly env policy t := by
  have hstart : BuildM.onStore (modifyGet (·.addTree d.source d.conformance))
      { log := FindingLog.empty policy } =
      (.ok ⟨0⟩, { store := d.sprout, log := FindingLog.empty policy }) := rfl
  apply Yields.bind_of_eq hstart
  by_cases hmodel : d.isModel = true
  · rw [if_pos hmodel]
    obtain ⟨-, r, hr⟩ | ⟨hnot, -⟩ := env.suppliers.resolveElement_outcome d.element
    · refine Yields.bind_of_eq (a := .created d.sprout.fresh) (t :=
        { store := (d.sprout.alloc (StoreM.freshNode d.element r ⟨0⟩)).2
          log := FindingLog.empty policy }) ?_ ?_
      · rw [onStore_apply, StoreM.instantiate_none_apply hr]
      refine Yields.bind (Yields.onStore d.plant_blank) ?_
      intro _ t ⟨⟨hstand, hblank, honly⟩, hlog⟩
      refine (BuildM.process_elaborates hstop hstand.owned ⟨r, hr, rfl⟩ hblank).imp ?_
      intro _ u ⟨hadds, helaborated⟩
      have hall : ∀ x, u.store.contains x = true → u.Elaborated env x := by
        intro x hx
        by_cases hold : t.store.contains x = true
        · rw [honly x hold]
          exact helaborated
        · exact hadds.elaborated x hx (Bool.not_eq_true _ ▸ hold)
      have hstand := hstand.of_extends hadds.ext
      refine ⟨⟨hstand, ⟨fun x n hn => ?_, fun x n hn c hc => ?_⟩, fun i x hx => ?_, ?_⟩, hall,
        fun _ => exists_topOf hstand (hadds.ext.contains _ hblank.contains), ?_⟩
      · exact (hall x (contains_iff.mpr ⟨n, hn⟩) n hn).variant
      · refine (hall x (contains_iff.mpr ⟨n, hn⟩) n hn).children c ?_
        rwa [childrenOf_of_get? hn]
      · have helement := hstand.element_top i x hx
        obtain ⟨n, hn⟩ := contains_iff.mp
          (contains_of_rootOf (hstand.owned.rooted.rootOf_top _ x hx))
        rw [elementOf_of_get? hn, eq_comm, Option.map_eq_some_iff] at helement
        obtain ⟨d', hd', -⟩ := helement
        obtain rfl := List.mem_singleton.mp (List.mem_of_getElem? hd')
        exact ⟨d', hd', hmodel⟩
      · refine hadds.anchored fun g hg => ?_
        rw [hlog] at hg
        cases hg
      · rw [hadds.log.policy, hlog]
        rfl
    · rw [isStatement_of_isModel hmodel] at hnot
      cases hnot
  · rw [if_neg hmodel]
    exact report_sprout_builtSoundly hstop hmodel rfl

/-- The state that is built for a document. -/
def built (env : Environment) (policy : SeverityPolicy) (d : SchemaDocument) : BuildState :=
  (populate env d { log := FindingLog.empty policy }).2

/-- A document is built into a state in which everything is elaborated. -/
theorem build_builtSoundly (hstop : env.stopAt = none) (policy : SeverityPolicy)
    (d : SchemaDocument) :
    d.build env policy = .ok (d.built env policy) ∧
      d.BuiltSoundly env policy (d.built env policy) := by
  have hraised : Succeeds (populate env d) { log := FindingLog.empty policy } fun _ t =>
      d.BuiltSoundly env policy t := populate_builtSoundly hstop d
  unfold Succeeds Yields at hraised
  rw [build_eq, built]
  rcases hrun : populate env d { log := FindingLog.empty policy } with ⟨e | _, t⟩
  · rw [hrun] at hraised
    exact hraised.elim
  · rw [hrun] at hraised
    exact ⟨rfl, hraised⟩

/-- A document is built into a sound state. -/
theorem build_sound (hstop : env.stopAt = none) (policy : SeverityPolicy) (d : SchemaDocument) :
    d.build env policy = .ok (d.built env policy) ∧
      Sound env.suppliers [d] (d.built env policy) :=
  (d.build_builtSoundly hstop policy).imp_right BuiltSoundly.sound

end SchemaDocument

/-! ## Lists of documents -/

namespace Schema

/-- What is built for some documents, put behind a state. -/
def gather (env : Environment) (policy : SeverityPolicy) (state : BuildState)
    (documents : List SchemaDocument) : BuildState :=
  documents.foldl (fun state d => state.absorb (d.built env policy)) state

/-- Several documents are built one after another, each behind those before it. -/
theorem gather_cons (env : Environment) (policy : SeverityPolicy) (state : BuildState)
    (d : SchemaDocument) (rest : List SchemaDocument) :
    gather env policy state (d :: rest) =
      gather env policy (state.absorb (d.built env policy)) rest := rfl

/-- The merged state is put together from what is built for each document. -/
theorem merge_eq_gather (hstop : env.stopAt = none) (policy : SeverityPolicy)
    (documents : List SchemaDocument) : merge env policy documents =
      .ok (gather env policy { log := FindingLog.empty policy } documents) := by
  have hbuilds : documents.mapM (SchemaDocument.build env policy) =
      .ok (documents.map (SchemaDocument.built env policy)) :=
    mapM_eq_ok_map fun d _ => (d.build_sound hstop policy).1
  rw [merge, hbuilds, gather]
  change Except.ok ((documents.map _).foldl BuildState.absorb _) = _
  rw [List.foldl_map]

/-- Building more documents behind a sound state leaves a sound one. -/
theorem gather_sound (hstop : env.stopAt = none) (policy : SeverityPolicy)
    (h : Sound env.suppliers documents a) (later : List SchemaDocument) :
    Sound env.suppliers (documents ++ later) (gather env policy a later) := by
  induction later generalizing documents a with
  | nil =>
    rw [List.append_nil]
    exact h
  | cons d rest ih =>
    have hnext := ih (h.absorb (d.build_sound hstop policy).2)
    rwa [List.append_assoc] at hnext

/-- An empty state is sound for no documents. -/
theorem sound_empty (suppliers : Suppliers) (policy : SeverityPolicy) :
    Sound suppliers [] { log := FindingLog.empty policy } where
  treesOf := TreesOf.empty
  faithful := faithful_of_empty fun _ => rfl
  crowned _ _ hx := by cases hx
  anchored _ hg := by cases hg

end Schema
end StatementForest
