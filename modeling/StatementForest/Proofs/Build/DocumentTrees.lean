import StatementForest.Proofs.Build.PopulateSuccess
import StatementForest.Proofs.Store.MergedStores
import StatementForest.Schema.Basic

/-!
# One tree for each document

Every document gets a tree of its own, and the trees of all documents are brought
together in the order of the documents.  `TreesOf` is what is known about the
store from then on: no statement is left on its own outside of all trees.

Main results:

- Theorem `SchemaDocument.build_outcome`: a document is built into a store with one
  tree.
- Theorem `TreesOf.absorb`: merging puts the trees of one list of documents behind
  those of another.
- Theorem `Schema.merge_outcome`: the merged store has one tree for each document.
-/

namespace StatementForest

open Store

/-- The element that a live statement views. -/
def Store.elementOf (s : Store) (x : NodeId) : Option Element := (s.faceOf x).map (·.2.2)

/-- The tops of all trees that have one, in the order of the trees. -/
def Store.tops (s : Store) : List NodeId := s.treeIds.filterMap s.topOf

/-- What a tree takes over from its document. -/
def Tree.heading (t : Tree) : Option String × Conformance := (t.source, t.conformance)

/-- What a document hands on to its tree. -/
def SchemaDocument.heading (d : SchemaDocument) : Option String × Conformance :=
  (d.source, d.conformance)

/-- The trees of a store are those of some documents, in their order.  The top of a
tree views its document, and a live statement without a parent is the top of a tree. -/
structure TreesOf (documents : List SchemaDocument) (s : Store) : Prop where
  owned : s.Owned
  planted : ∀ x, s.contains x = true → s.parentOf x = none → s.isTop x = true
  heading : ∀ i : Nat,
    (s.tree? ⟨i⟩).map Tree.heading = documents[i]?.map SchemaDocument.heading
  element_top : ∀ i x, s.topOf ⟨i⟩ = some x →
    s.elementOf x = documents[i]?.map SchemaDocument.element

namespace TreesOf

variable {documents documents' : List SchemaDocument} {s t : Store}

/-! ## Growing stores -/

/-- With the same tops the same statements are tops. -/
theorem isTop_congr (h : ∀ r, t.topOf r = s.topOf r) (x : NodeId) : t.isTop x = s.isTop x := by
  rw [Bool.eq_iff_iff, isTop_iff, isTop_iff]
  simp only [h]

/-- Trees that are the same thing take over the same from their documents. -/
theorem heading_congr (h : ∀ r, (t.tree? r).map Tree.face = (s.tree? r).map Tree.face)
    (r : RootId) : (t.tree? r).map Tree.heading = (s.tree? r).map Tree.heading := by
  have hr := congrArg (Option.map fun p => (p.1, p.2.2)) (h r)
  rwa [Option.map_map, Option.map_map] at hr

/-- A store that is extended keeps the trees of its documents. -/
theorem of_extends (h : TreesOf documents s) (hst : Extends s t) : TreesOf documents t where
  owned := hst.owned
  planted x hx hnone := by
    have hxs := hst.old_of_parentless x hx hnone
    rw [hst.parentOf x hxs] at hnone
    rw [isTop_congr hst.topOf]
    exact h.planted x hxs hnone
  heading i := by
    rw [heading_congr hst.tree]
    exact h.heading i
  element_top i x hx := by
    rw [hst.topOf] at hx
    have hlive := contains_of_rootOf (h.owned.rooted.rootOf_top _ x hx)
    rw [elementOf, hst.faceOf x hlive]
    exact h.element_top i x hx

/-- A store without trees has those of no documents. -/
theorem empty : TreesOf [] {} where
  owned := Owned.empty
  planted x hx _ := by cases hx
  heading i := by simp [tree?]
  element_top i x hx := by cases hx

/-! ## Merging -/

/-- There are as many trees as documents. -/
theorem size_trees (h : TreesOf documents s) : s.trees.size = documents.length := by
  have hsome : ∀ i, i < s.trees.size ↔ i < documents.length := by
    intro i
    have hi := congrArg Option.isSome (h.heading i)
    rw [Option.isSome_map, Option.isSome_map, tree?, Bool.eq_iff_iff] at hi
    simpa using hi
  have hle := hsome s.trees.size
  have hge := hsome documents.length
  omega

/-- Merging puts the trees of one list of documents behind those of another. -/
theorem absorb (h : TreesOf documents s) (h' : TreesOf documents' t) :
    TreesOf (documents ++ documents') (s.absorb t) := by
  have hsize := h.size_trees
  have hcases : ∀ i : Nat, i < s.trees.size ∨ ∃ j, i = j + s.trees.size := fun i => by
    by_cases hi : i < s.trees.size
    · exact .inl hi
    · exact .inr ⟨i - s.trees.size, by omega⟩
  refine ⟨h.owned.absorb h'.owned, fun x hx hnone => ?_, fun i => ?_, fun i x hx => ?_⟩
  · rw [isTop_iff]
    rcases x.lt_or_shift s.slots.size with hlt | ⟨x, rfl⟩
    · rw [contains_absorb_left hlt] at hx
      rw [parentOf_absorb_left hlt] at hnone
      obtain ⟨r, hr⟩ := isTop_iff.mp (h.planted x hx hnone)
      refine ⟨r, ?_⟩
      obtain ⟨tree, htree, _⟩ := Option.bind_eq_some_iff.mp hr
      rw [topOf, tree?_absorb_left (lt_size_of_tree? htree)]
      exact hr
    · rw [contains_absorb_right] at hx
      rw [parentOf_absorb_right, Option.map_eq_none_iff] at hnone
      obtain ⟨r, hr⟩ := isTop_iff.mp (h'.planted x hx hnone)
      refine ⟨r.shift s.trees.size, ?_⟩
      rw [topOf_absorb_right, hr]
      rfl
  · rcases hcases i with hi | ⟨j, rfl⟩
    · rw [tree?_absorb_left hi, h.heading, List.getElem?_append_left (by omega)]
    · have hj : (⟨j + s.trees.size⟩ : RootId) = RootId.shift ⟨j⟩ s.trees.size := rfl
      rw [hj, tree?_absorb_right, List.getElem?_append_right (by omega), Option.map_map,
        hsize, Nat.add_sub_cancel, ← h'.heading]
      rcases t.tree? ⟨j⟩ with _ | tree <;> rfl
  · rcases hcases i with hi | ⟨j, rfl⟩
    · rw [topOf, tree?_absorb_left hi] at hx
      have hlive := contains_of_rootOf (h.owned.rooted.rootOf_top _ x hx)
      rw [elementOf, faceOf_absorb_left (lt_size_of_contains hlive),
        List.getElem?_append_left (by omega)]
      exact h.element_top i x hx
    · have hj : (⟨j + s.trees.size⟩ : RootId) = RootId.shift ⟨j⟩ s.trees.size := rfl
      rw [hj, topOf_absorb_right, Option.map_eq_some_iff] at hx
      obtain ⟨y, hy, rfl⟩ := hx
      rw [elementOf, faceOf_absorb_right, List.getElem?_append_right (by omega), hsize,
        Nat.add_sub_cancel]
      exact h'.element_top j y hy

/-! ## Subtrees -/

/-- The tops are the statements that are the top of a tree. -/
theorem mem_tops {x : NodeId} : x ∈ s.tops ↔ s.isTop x = true := by
  rw [tops, List.mem_filterMap, isTop_iff]
  constructor
  · rintro ⟨r, _, hr⟩
    exact ⟨r, hr⟩
  · rintro ⟨r, hr⟩
    obtain ⟨tree, htree, _⟩ := Option.bind_eq_some_iff.mp hr
    exact ⟨r, List.mem_map.mpr ⟨r.index, List.mem_range.mpr (lt_size_of_tree? htree), rfl⟩, hr⟩

/-- Different trees have different tops, since a top names its tree. -/
theorem nodup_tops (hr : s.Rooted) : s.tops.Nodup := by
  have htrees : s.treeIds.Nodup := List.nodup_range.map fun i j hij => RootId.mk.inj hij
  refine List.Nodup.filterMap ?_ htrees
  intro r q x hx hx'
  have hroot := hr.rootOf_top r x hx
  rw [hr.rootOf_top q x hx'] at hroot
  exact (Option.some.inj hroot).symm

/-- Tops are live and have no parent. -/
theorem contains_of_mem_tops (hr : s.Rooted) {x : NodeId} (hx : x ∈ s.tops) :
    s.contains x = true ∧ s.parentOf x = none := by
  obtain ⟨r, hr'⟩ := isTop_iff.mp (mem_tops.mp hx)
  exact ⟨contains_of_rootOf (hr.rootOf_top r x hr'), hr.parentOf_top r x hr'⟩

/-- Every live statement stands below the top of a tree. -/
theorem exists_top (h : TreesOf documents s) {x : NodeId} (hx : s.contains x = true) :
    ∃ r top, s.topOf r = some top ∧ s.Below top x := by
  obtain ⟨top, hbelow, hnone⟩ := (h.owned.wired.grounded x).exists_parentless
  have hlive := h.owned.wired.contains_of_below hx hbelow
  obtain ⟨r, hr⟩ := isTop_iff.mp (h.planted top hlive hnone)
  exact ⟨r, top, hr, hbelow⟩

/-- The subtrees of the tops hold every live statement once. -/
theorem perm_liveIds (h : TreesOf documents s) :
    (s.tops.flatMap s.subtree).Perm s.liveIds := by
  have hw := h.owned.wired
  have htop := fun x hx => contains_of_mem_tops h.owned.rooted (x := x) hx
  have hnodup : (s.tops.flatMap s.subtree).Nodup := by
    refine List.nodup_flatMap.mpr ⟨fun a ha => hw.nodup_subtree (htop a ha).1, ?_⟩
    apply (nodup_tops h.owned.rooted).imp_of_mem
    intro a b ha hb hne x hx hx'
    have hax := (hw.mem_subtree (htop a ha).1).mp hx
    have hbx := (hw.mem_subtree (htop b hb).1).mp hx'
    rcases hax.linear hbx with hab | hba
    · exact hne (hab.eq_of_parentOf_eq_none (htop b hb).2)
    · exact hne (hba.eq_of_parentOf_eq_none (htop a ha).2).symm
  refine (List.perm_ext_iff_of_nodup hnodup s.nodup_liveIds).mpr fun x => ?_
  rw [List.mem_flatMap, mem_liveIds]
  constructor
  · rintro ⟨a, ha, hx⟩
    exact contains_of_above (htop a ha).1 ((hw.mem_subtree (htop a ha).1).mp hx)
  · intro hx
    obtain ⟨r, a, ha, hax⟩ := h.exists_top hx
    have hlive := hw.contains_of_below hx hax
    exact ⟨a, mem_tops.mpr (isTop_iff.mpr ⟨r, ha⟩), (hw.mem_subtree hlive).mpr hax⟩

/-- The walks below the tops of all trees find every live statement once. -/
theorem exists_subtrees (h : TreesOf documents s) :
    ∃ subtrees, s.tops.mapM s.descendants = .ok subtrees ∧
      subtrees.flatten.Perm s.liveIds := by
  refine ⟨s.tops.map s.subtree, mapM_eq_ok_map fun a ha => ?_, ?_⟩
  · exact h.owned.wired.descendants_eq (contains_of_mem_tops h.owned.rooted ha).1
  · rw [← List.flatMap_def]
    exact h.perm_liveIds

end TreesOf

/-! ## Building one document -/

namespace SchemaDocument

/-- A store with the tree of a document, still without statements. -/
def sprout (d : SchemaDocument) : Store :=
  (({} : Store).addTree d.source d.conformance).2

/-- A store with a new tree has no statements. -/
theorem get?_sprout (d : SchemaDocument) (x : NodeId) : d.sprout.get? x = none := rfl

/-- A store with a new tree has this tree only. -/
theorem tree?_sprout (d : SchemaDocument) (i : Nat) :
    d.sprout.tree? ⟨i⟩ = [({ source := d.source, conformance := d.conformance } : Tree)][i]? := by
  simp [sprout, tree?, addTree]

/-- A store with a new tree has the tree of its document. -/
theorem treesOf_sprout (d : SchemaDocument) : TreesOf [d] d.sprout where
  owned := Owned.empty.addTree d.source d.conformance
  planted x hx _ := by cases hx
  heading i := by
    rw [tree?_sprout]
    cases i <;> rfl
  element_top i x hx := by
    rw [topOf, tree?_sprout] at hx
    cases i <;> cases hx

variable {env : Environment}

/-- The top of the tree of a document is made and planted. -/
theorem plant_succeeds (d : SchemaDocument) {r : Resolution} :
    Succeeds (StoreM.setTop ⟨0⟩ d.sprout.fresh)
      (d.sprout.alloc (StoreM.freshNode d.element r ⟨0⟩)).2
      fun _ t => TreesOf [d] t ∧ t.contains d.sprout.fresh = true := by
  have hself := get?_alloc_fresh d.sprout (StoreM.freshNode d.element r ⟨0⟩)
  have htree : (d.sprout.alloc (StoreM.freshNode d.element r ⟨0⟩)).2.tree? ⟨0⟩ =
      some { source := d.source, conformance := d.conformance } := tree?_sprout d 0
  refine (StoreM.setTop_succeeds ?_ htree ?_ ?_).imp ?_
  · exact (treesOf_sprout d).owned.alloc rfl rfl
  · rw [rootOf_of_get? hself]
    rfl
  · rw [parentOf_of_get? hself]
    rfl
  rintro _ t ⟨ot, rfl⟩
  have honly : ∀ x, (d.sprout.alloc (StoreM.freshNode d.element r ⟨0⟩)).2.contains x = true →
      x = d.sprout.fresh := by
    intro x hx
    by_contra hne
    rw [Store.contains, get?_alloc_of_ne _ _ hne, get?_sprout] at hx
    cases hx
  refine ⟨⟨ot, fun x hx _ => ?_, fun i => ?_, fun i x hx => ?_⟩, ?_⟩
  · rw [honly x hx, isTop_iff]
    exact ⟨⟨0⟩, by rw [topOf, tree?_updateTree_self htree]; rfl⟩
  · cases i with
    | zero =>
      rw [tree?_updateTree_self htree]
      rfl
    | succ i =>
      rw [tree?_updateTree_of_ne (by simp)]
      exact (treesOf_sprout d).heading (i + 1)
  · cases i with
    | zero =>
      rw [topOf, tree?_updateTree_self htree] at hx
      cases hx
      change ((d.sprout.alloc _).2.faceOf _).map _ = _
      rw [faceOf, hself]
      rfl
    | succ i =>
      -- there is no second tree
      rw [topOf, tree?_updateTree_of_ne (by simp)] at hx
      cases hx
  · exact contains_iff.mpr ⟨_, hself⟩

/-- Populating the tree of a document stops early only when asked to. -/
theorem populate_outcome (d : SchemaDocument) (log : FindingLog) :
    Yields (fun e _ => Stops env e) (populate env d) { log } fun _ t => TreesOf [d] t.store := by
  have hstart : BuildM.onStore (modifyGet (·.addTree d.source d.conformance)) { log } =
      (.ok ⟨0⟩, { store := d.sprout, log }) := rfl
  have hreport : ∀ f, Yields (fun e _ => Stops env e) (BuildM.report env f)
      { store := d.sprout, log } fun _ t => TreesOf [d] t.store := fun f =>
    Yields.imp (OnlyExtends.report (treesOf_sprout d).owned f)
      fun _ _ ht => (treesOf_sprout d).of_extends ht.1
  apply Yields.bind_of_eq hstart
  by_cases hmodel : d.isModel = true
  · rw [if_pos hmodel]
    rcases hr : env.suppliers.resolveElement d.element with finding | r
    · refine Yields.bind_of_eq (a := .rejected finding) ?_ (hreport finding)
      rw [onStore_apply, StoreM.instantiate_of_error hr]
    · refine Yields.bind_of_eq (a := .created d.sprout.fresh) (t :=
        { store := (d.sprout.alloc (StoreM.freshNode d.element r ⟨0⟩)).2, log }) ?_ ?_
      · rw [onStore_apply, StoreM.instantiate_none_apply hr]
      · apply Yields.bind (Yields.onStore (Yields.of_succeeds (plant_succeeds d)))
        intro _ t ⟨⟨hstand, hlive⟩, _⟩
        apply Yields.imp (OnlyExtends.process hstand.owned hlive)
        intro _ u ⟨hu, _⟩
        exact hstand.of_extends hu
  · rw [if_neg hmodel]
    exact hreport d.noModel

/-- Building a document is populating an empty state with it. -/
theorem build_eq (env : Environment) (policy : SeverityPolicy) (d : SchemaDocument) :
    build env policy d = match populate env d { log := FindingLog.empty policy } with
      | (.ok _, state) => .ok state
      | (.error failure, _) => .error failure := rfl

/-- A document is built, or building it stops because it was asked to. -/
theorem build_outcome (env : Environment) (policy : SeverityPolicy) (d : SchemaDocument) :
    (∃ state, build env policy d = .ok state ∧ TreesOf [d] state.store) ∨
      ∃ e, build env policy d = .error e ∧ Stops env e := by
  have h : Yields (fun e _ => Stops env e) (populate env d) { log := FindingLog.empty policy }
      fun _ t => TreesOf [d] t.store := populate_outcome d _
  unfold Yields at h
  rw [build_eq]
  rcases hrun : populate env d { log := FindingLog.empty policy } with ⟨e | _, t⟩
  · rw [hrun] at h
    exact .inr ⟨e, rfl, h⟩
  · rw [hrun] at h
    exact .inl ⟨t, rfl, h⟩

end SchemaDocument

/-! ## Building all documents -/

namespace Schema

/-- A document whose element is neither a module nor a submodule. -/
def strayDocument : SchemaDocument where
  element := {
    name := "container", value := some "c", line := none, source := none
    scope := { home := "" }, children := [] }
  source := none
  conformance := .implement

variable {env : Environment} {policy : SeverityPolicy} {documents : List SchemaDocument}

/-- Every document is built on its own, or the first that stops ends it all. -/
theorem builds_outcome (env : Environment) (policy : SeverityPolicy)
    (documents : List SchemaDocument) :
    (∃ states, documents.mapM (SchemaDocument.build env policy) = .ok states ∧
      List.Forall₂ (fun d state => TreesOf [d] state.store) documents states) ∨
    ∃ e, documents.mapM (SchemaDocument.build env policy) = .error e ∧ Stops env e := by
  induction documents with
  | nil => exact .inl ⟨[], rfl, .nil⟩
  | cons d rest ih =>
    rw [List.mapM_cons]
    obtain ⟨state, hstate, hstand⟩ | ⟨e, he, hstops⟩ := d.build_outcome env policy
    · rw [hstate]
      obtain ⟨states, hstates, hall⟩ | ⟨e, he, hstops⟩ := ih
      · refine .inl ⟨state :: states, ?_, .cons hstand hall⟩
        rw [hstates]
        rfl
      · refine .inr ⟨e, ?_, hstops⟩
        rw [he]
        rfl
    · refine .inr ⟨e, ?_, hstops⟩
      rw [he]
      rfl

/-- Merged stores have the trees of all documents, in their order, by induction on the stores. -/
theorem treesOf_foldl_absorb {states : List BuildState} {done : List SchemaDocument}
    {state : BuildState} (hstate : TreesOf done state.store)
    (h : List.Forall₂ (fun d state => TreesOf [d] state.store) documents states) :
    TreesOf (done ++ documents) (states.foldl BuildState.absorb state).store := by
  induction h generalizing done state with
  | nil =>
    rw [List.append_nil]
    exact hstate
  | @cons d next documents states hd _ ih =>
    have habsorb : TreesOf (done ++ [d]) (state.absorb next).store := hstate.absorb hd
    have hnext := ih habsorb
    rwa [List.append_assoc] at hnext

/-- The merged store has one tree for each document, in their order. -/
theorem merge_outcome (env : Environment) (policy : SeverityPolicy)
    (documents : List SchemaDocument) :
    (∃ state, merge env policy documents = .ok state ∧ TreesOf documents state.store) ∨
      ∃ e, merge env policy documents = .error e ∧ Stops env e := by
  rw [merge]
  obtain ⟨states, hstates, hall⟩ | ⟨e, he, hstops⟩ := builds_outcome env policy documents
  · refine .inl ⟨_, by rw [hstates]; rfl, ?_⟩
    have hstart : TreesOf [] ({ log := FindingLog.empty policy } : BuildState).store :=
      TreesOf.empty
    exact treesOf_foldl_absorb hstart hall
  · exact .inr ⟨e, by rw [he]; rfl, hstops⟩

end Schema
end StatementForest
