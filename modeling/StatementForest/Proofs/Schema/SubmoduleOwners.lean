import StatementForest.Proofs.Attribute.SchemaAttributes
import StatementForest.Proofs.Schema.SeverityIndependence

/-!
# Where submodules belong

A submodule belongs to the first module with the name that its first `belongs-to` gives.  When
there is no such module, or no `belongs-to`, the submodule has no namespace, and a finding tells
why.  Of several submodules with one name only the first is looked at: the others have neither an
owner nor a namespace, and nothing is found out about where they belong.

Main results:

- Theorem `ModelTables.find?_ofStore_iff`, `ModelTables.mem_values_ofStore`: the tables hold the
  first tree of every name, and no other tree.
- Theorem `Schema.hasTreeNamed_iff`: which names the trees of a schema have.
- Theorem `Stages.ownerOf_of_first`, `Stages.mem_log_of_orphan`: what linking does with the first
  submodule of a name.
- Theorem `Schema.belongs_of_build`: where the submodules of a schema belong.

Current gaps:

- Nothing is pruned and nothing is suppressed, and the grammar is the standard one.
-/

namespace StatementForest

open Store

/-! ## The first tree of a name -/

/-- The tree of a module, or of a submodule, with a name. -/
def Store.HasTreeNamed (s : Store) (isModule : Bool) (name : String) (root : RootId) : Prop :=
  ∃ x n, s.topOf root = some x ∧ s.get? x = some n ∧ n.isKeyword .module = isModule ∧
    n.argument = name

/-- The first tree of a module, or of a submodule, with a name. -/
structure Store.FirstNamed (s : Store) (isModule : Bool) (name : String) (root : RootId) :
    Prop where
  hasTreeNamed : s.HasTreeNamed isModule name root
  le : ∀ q, s.HasTreeNamed isModule name q → root.index ≤ q.index

/-- A tree with a name is listed. -/
theorem Store.HasTreeNamed.mem_treeIds {s : Store} {isModule : Bool} {name : String} {root : RootId}
    (h : s.HasTreeNamed isModule name root) : root ∈ s.treeIds := by
  obtain ⟨x, -, hx, -⟩ := h
  obtain ⟨tree, htree, -⟩ := Option.bind_eq_some_iff.mp hx
  exact Renamed.mem_treeIds_iff.mpr (Option.isSome_iff_exists.mpr ⟨tree, htree⟩)

/-- A tree has one name. -/
theorem Store.HasTreeNamed.name_eq {s : Store} {isModule isModule' : Bool} {name name' : String}
    {root : RootId} (h : s.HasTreeNamed isModule name root)
    (h' : s.HasTreeNamed isModule' name' root) :
    name' = name := by
  obtain ⟨x, n, hx, hn, -, rfl⟩ := h
  obtain ⟨y, m, hy, hm, -, rfl⟩ := h'
  cases hx.symm.trans hy
  cases hn.symm.trans hm
  rfl

/-- The trees of a store stand in the order of their numbers. -/
theorem Store.pairwise_treeIds (s : Store) :
    s.treeIds.Pairwise fun q r => q.index < r.index :=
  List.pairwise_map.mpr List.pairwise_lt_range

namespace ModelTables

variable {s : Store} {isModule : Bool} {name : String} {root q : RootId}

/-- A tree is entered under the name that it has. -/
theorem lookup_entries_iff :
    (entries s isModule root).lookup name = some q ↔ q = root ∧
      s.HasTreeNamed isModule name root := by
  rw [entries]
  constructor
  · rcases hn : (s.topOf root).bind s.get? with _ | n
    · exact fun h => by cases h
    obtain ⟨x, hx, hn⟩ := Option.bind_eq_some_iff.mp hn
    dsimp only
    split
    · next hmodule =>
      intro h
      obtain ⟨earlier, later, hentries, -⟩ := List.lookup_eq_some_iff.mp h
      have hmem : (name, q) ∈ [(n.argument, root)] := hentries ▸ List.mem_append_cons_self
      cases List.mem_singleton.mp hmem
      exact ⟨rfl, x, n, hx, hn, hmodule, rfl⟩
    · exact fun h => by cases h
  · rintro ⟨rfl, x, n, hx, hn, hmodule, rfl⟩
    rw [hx, Option.bind_some, hn]
    dsimp only
    rw [if_pos hmodule, List.lookup_cons_self]

/-- The tables give the first tree of a name. -/
theorem find?_ofStore_iff :
    ((ofStore s).table isModule).find? name = some root ↔ s.FirstNamed isModule name root := by
  have hroots : (s.treeIds.flatMap (entries s isModule)).lookup name =
      s.treeIds.findSome? fun r => (entries s isModule r).lookup name := by
    induction s.treeIds with
    | nil => rfl
    | cons r rest ih =>
      rw [List.flatMap_cons, List.lookup_append, List.findSome?_cons, ih]
      rcases (entries s isModule r).lookup name with _ | q <;> rfl
  rw [find?_ofStore, hroots]
  constructor
  · intro h
    obtain ⟨earlier, r, later, htrees, hr, hnone⟩ := List.findSome?_eq_some_iff.mp h
    obtain ⟨rfl, hbears⟩ := lookup_entries_iff.mp hr
    refine ⟨hbears, fun q hq => ?_⟩
    have hlookup := lookup_entries_iff.mpr ⟨rfl, hq⟩
    have hmem := hq.mem_treeIds
    have horder := s.pairwise_treeIds
    rw [htrees] at hmem horder
    obtain hmem | hmem := List.mem_append.mp hmem
    · rw [hnone q hmem] at hlookup
      cases hlookup
    obtain rfl | hmem := List.mem_cons.mp hmem
    · exact Nat.le_refl _
    · exact Nat.le_of_lt ((List.pairwise_cons.mp (List.pairwise_append.mp horder).2.1).1 q hmem)
  · intro h
    obtain ⟨earlier, later, htrees⟩ := List.append_of_mem h.hasTreeNamed.mem_treeIds
    have horder := s.pairwise_treeIds
    rw [htrees] at horder
    refine List.findSome?_eq_some_iff.mpr
      ⟨earlier, root, later, htrees, lookup_entries_iff.mpr ⟨rfl, h.hasTreeNamed⟩, fun q hq => ?_⟩
    refine Option.eq_none_iff_forall_ne_some.mpr fun r hr => ?_
    obtain ⟨rfl, hbears⟩ := lookup_entries_iff.mp hr
    have hlt := (List.pairwise_append.mp horder).2.2 r hq root List.mem_cons_self
    exact absurd (h.le r hbears) (Nat.not_le.mpr hlt)

/-- No tree has a name that is not found. -/
theorem not_hasTreeNamed_of_find?_ofStore (h : ((ofStore s).table isModule).find? name = none)
    (q : RootId) : ¬ s.HasTreeNamed isModule name q := by
  rw [find?_ofStore, List.lookup_eq_none_iff] at h
  intro hq
  obtain ⟨earlier, later, hentries, -⟩ :=
    List.lookup_eq_some_iff.mp (lookup_entries_iff.mpr ⟨rfl, hq⟩)
  have hmem : (name, q) ∈ entries s isModule q := hentries ▸ List.mem_append_cons_self
  exact bne_iff_ne.mp (h (name, q) (List.mem_flatMap.mpr ⟨q, hq.mem_treeIds, hmem⟩)) rfl

/-- No name stands in a table twice. -/
theorem nodup_keys_ofStore (s : Store) (isModule : Bool) :
    ((ofStore s).table isModule).keys.Nodup := by
  have hadd : ∀ (tables : ModelTables) root, (tables.table isModule).keys.Nodup →
      ((tables.add s root).table isModule).keys.Nodup := by
    intro tables root h
    unfold ModelTables.add
    split
    · exact h
    · cases isModule <;> split
      · exact h
      · exact Roll.nodup_keys_insertNew h
      · exact Roll.nodup_keys_insertNew h
      · exact h
  have hfold : ∀ (roots : List RootId) (tables : ModelTables),
      (tables.table isModule).keys.Nodup →
        ((roots.foldl (add s) tables).table isModule).keys.Nodup := by
    intro roots
    induction roots with
    | nil => exact fun _ h => h
    | cons root rest ih => exact fun tables h => ih _ (hadd tables root h)
  refine hfold s.treeIds {} ?_
  cases isModule <;> exact List.nodup_nil

/-- Only the first tree of a name is in the tables. -/
theorem mem_values_ofStore :
    root ∈ ((ofStore s).table isModule).values ↔ ∃ name, s.FirstNamed isModule name root := by
  constructor
  · intro h
    obtain ⟨⟨name, r⟩, hmem, rfl⟩ := List.mem_map.mp h
    exact ⟨name, find?_ofStore_iff.mp
      ((Roll.find?_eq_some_iff (nodup_keys_ofStore s isModule)).mpr hmem)⟩
  · rintro ⟨name, h⟩
    exact Roll.mem_values_of_find? (find?_ofStore_iff.mpr h)

/-- The table of modules finds the first module with a name. -/
theorem find?_modules_iff :
    (ofStore s).modules.find? name = some root ↔ s.FirstNamed true name root :=
  @find?_ofStore_iff s true name root

/-- No module has a name that is not found. -/
theorem not_hasTreeNamed_of_find?_modules (h : (ofStore s).modules.find? name = none) (q : RootId) :
    ¬ s.HasTreeNamed true name q :=
  @not_hasTreeNamed_of_find?_ofStore s true name h q

/-- The table of submodules holds the first submodule with each name. -/
theorem mem_submodules :
    root ∈ (ofStore s).submodules.values ↔ ∃ name, s.FirstNamed false name root :=
  @mem_values_ofStore s false root

end ModelTables

/-! ## Namespaces of submodules -/

/-- What is a submodule is no module. -/
theorem Node.isKeyword_module_of_submodule {n : Node} (h : n.isKeyword .submodule = true) :
    n.isKeyword .module = false := by
  rw [isKeyword, beq_iff_eq] at h
  rw [isKeyword, h]
  rfl

namespace Store

variable {s t : Store} {root owner : RootId} {top : NodeId} {n : Node}

/-- A tree with a top can be looked up. -/
theorem exists_tree_of_topOf (h : s.topOf root = some top) :
    ∃ tree, s.tree? root = some tree ∧ tree.top = some top :=
  Option.bind_eq_some_iff.mp h

/-- The statements of a submodule belong to its owner. -/
theorem owningTree_submodule (htop : s.topOf root = some top) (hn : s.get? top = some n)
    (hsub : n.isKeyword .submodule = true) : s.owningTree root = .ok (s.ownerOf root) := by
  obtain ⟨tree, htree, htop⟩ := exists_tree_of_topOf htop
  rw [owningTree, Store.tree, htree, ownerOf, htree]
  simp [htop, node_of_get? hn, hsub, bind, Except.bind, pure, Except.pure]

/-- A module keeps its statements. -/
theorem owningTree_module (htop : s.topOf root = some top) (hn : s.get? top = some n)
    (hmodule : n.isKeyword .module = true) : s.owningTree root = .ok (some root) := by
  obtain ⟨tree, htree, htop⟩ := exists_tree_of_topOf htop
  have hsub : n.isKeyword .submodule = false := by
    rcases hsub : n.isKeyword .submodule with _ | _
    · rfl
    · rw [Node.isKeyword_module_of_submodule hsub] at hmodule
      cases hmodule
  rw [owningTree, Store.tree, htree]
  simp [htop, node_of_get? hn, hsub, bind, Except.bind, pure, Except.pure]

/-- A submodule without an owner has no namespace. -/
theorem namespaceOf_of_ownerOf_eq_none (htop : s.topOf root = some top)
    (hn : s.get? top = some n) (hsub : n.isKeyword .submodule = true)
    (howner : s.ownerOf root = none) : s.namespaceOf root = .ok none := by
  rw [namespaceOf, owningTree_submodule htop hn hsub, howner]
  rfl

/-- A submodule has the namespace of the module that owns it. -/
theorem namespaceOf_of_ownerOf (htop : s.topOf root = some top) (hn : s.get? top = some n)
    (hsub : n.isKeyword .submodule = true) (howner : s.ownerOf root = some owner)
    {name : String} (hbears : s.HasTreeNamed true name owner) :
    s.namespaceOf root = s.namespaceOf owner := by
  obtain ⟨x, m, hx, hm, hmodule, -⟩ := hbears
  rw [namespaceOf, namespaceOf, owningTree_submodule htop hn hsub, howner,
    owningTree_module hx hm hmodule]

end Store

/-- The statements of a tree have its namespace. -/
theorem Store.Attributed.namespaceOf_eq {s : Store} {x : NodeId} {n : Node}
    (h : s.Attributed x n) (hr : s.Rooted) (hn : s.get? x = some n) :
    s.namespaceOf n.root = .ok n.namespaceUri := by
  obtain ⟨root, tree, top, uri, status, config, htree, htop, huri, hstatus, -, hattributes⟩ := h
  have hroot := hr.rootOf_eq_of_below hstatus.stands_below
  rw [rootOf_of_get? hn,
    hr.rootOf_top root top (Option.bind_eq_some_iff.mpr ⟨tree, htree, htop⟩)] at hroot
  rw [Option.some.inj hroot, huri, show n.namespaceUri = uri from congrArg (·.1) hattributes]

/-! ## What linking does to a schema -/

namespace Stages

variable {c : Configuration} {merged : BuildState} {schema : Schema}
  {isModule : Bool} {name : String} {root : RootId} {f : Finding}

/-- Without pruning the trees of a schema have the names that they were merged with. -/
theorem hasTreeNamed_iff (stages : Stages c merged schema) (hprunes : c.prunes = false) :
    schema.store.HasTreeNamed isModule name root ↔
      merged.store.HasTreeNamed isModule name root := by
  have halike := stages.alike hprunes
  rw [HasTreeNamed, HasTreeNamed, stages.topOf]
  refine exists_congr fun x => ⟨?_, ?_⟩
  · rintro ⟨m, hx, hm, hmodule, rfl⟩
    obtain ⟨n, hn, hface⟩ := halike.exists_get?_left hm
    exact ⟨n, hx, hn, Node.isKeyword_of_face hface _ ▸ hmodule,
      (Node.argument_of_face hface).symm⟩
  · rintro ⟨n, hx, hn, hmodule, rfl⟩
    obtain ⟨m, hm, hface⟩ := halike.exists_get? hn
    exact ⟨m, hx, hm, (Node.isKeyword_of_face hface _).trans hmodule, Node.argument_of_face hface⟩

/-- The first tree with a name is the same before and after the later stages. -/
theorem first_iff (stages : Stages c merged schema) (hprunes : c.prunes = false) :
    schema.store.FirstNamed isModule name root ↔ merged.store.FirstNamed isModule name root := by
  have hbears : ∀ q, schema.store.HasTreeNamed isModule name q ↔
    merged.store.HasTreeNamed isModule name q :=
    fun _ => stages.hasTreeNamed_iff hprunes
  constructor
  · exact fun h => ⟨(hbears root).mp h.hasTreeNamed, fun q hq => h.le q ((hbears q).mpr hq)⟩
  · exact fun h => ⟨(hbears root).mpr h.hasTreeNamed, fun q hq => h.le q ((hbears q).mp hq)⟩

/-- When no tree had an owner before linking, a tree has the one that linking gives it. -/
theorem ownerOf_eq (stages : Stages c merged schema)
    (halone : ∀ r, merged.store.ownerOf r = none) (root : RootId) :
    schema.store.ownerOf root = BuildM.joinedOwners merged.store (.ofStore merged.store)
      (ModelTables.ofStore merged.store).submodules.values root := by
  rw [stages.ownerOf, Store.ownerOf, BuildM.linked, tree?_adopt]
  rcases htree : merged.store.tree? root with _ | tree
  · rw [BuildM.joinedOwners, if_neg]
    · rfl
    intro hmem
    obtain ⟨name, hfirst⟩ := ModelTables.mem_submodules.mp hmem
    have htrees := Renamed.mem_treeIds_iff.mp hfirst.hasTreeNamed.mem_treeIds
    rw [htree] at htrees
    cases htrees
  · have hnone := halone root
    rw [Store.ownerOf, htree, Option.bind_some] at hnone
    rw [Option.map_some, Option.bind_some]
    dsimp only
    rw [hnone, Option.or_none]

/-- A tree that is not the first submodule of its name gets no owner. -/
theorem ownerOf_of_not_first (stages : Stages c merged schema) (hprunes : c.prunes = false)
    (halone : ∀ r, merged.store.ownerOf r = none)
    (h : ∀ name, ¬ schema.store.FirstNamed false name root) : schema.store.ownerOf root = none := by
  rw [stages.ownerOf_eq halone, BuildM.joinedOwners, if_neg]
  intro hmem
  obtain ⟨name, hfirst⟩ := ModelTables.mem_submodules.mp hmem
  exact h name ((stages.first_iff hprunes).mpr hfirst)

/-- What linking finds out about a submodule is recorded. -/
theorem mem_log_of_join (stages : Stages c merged schema)
    (hshown : merged.log.policy.suppresses f.kind = false)
    (hfirst : merged.store.FirstNamed false name root)
    (h : f ∈ merged.store.joinFindings c.orphans (.ofStore merged.store) root) :
    f ∈ schema.log.entries := by
  obtain ⟨before, after, hlog, -⟩ := stages.log
  rw [hlog]
  refine FindingLog.mem_addAll.mpr (.inr ⟨List.mem_append_left _ ?_, hshown⟩)
  exact List.mem_append_right _ (List.mem_flatMap.mpr
    ⟨root, ModelTables.mem_submodules.mpr ⟨name, hfirst⟩, h⟩)

section BelongsTo

variable {top b : NodeId} {n m : Node} (stages : Stages c merged schema)
  (hprunes : c.prunes = false) (halone : ∀ r, merged.store.ownerOf r = none)
  (htop : schema.store.topOf root = some top)

include stages hprunes halone htop

/-- A tree without a `belongs-to` gets no owner. -/
theorem ownerOf_of_no_belongsTo (hb : schema.store.firstOfKeyword top .belongsTo = none) :
    schema.store.ownerOf root = none := by
  rw [(stages.alike hprunes).firstOfKeyword] at hb
  rw [stages.topOf] at htop
  rw [stages.ownerOf_eq halone, BuildM.joinedOwners, joins?, htop, Option.bind_some,
    firstNodeOfKeyword, hb]
  exact ite_self none

/-- The first submodule of a name gets the module as owner that its first `belongs-to` names. -/
theorem ownerOf_of_first (hfirst : schema.store.FirstNamed false name root)
    (hb : schema.store.firstOfKeyword top .belongsTo = some b)
    (hm : schema.store.get? b = some m) :
    schema.store.ownerOf root = (ModelTables.ofStore merged.store).modules.find? m.argument := by
  have halike := stages.alike hprunes
  obtain ⟨m', hm', hface⟩ := halike.exists_get?_left hm
  rw [halike.firstOfKeyword] at hb
  rw [stages.topOf] at htop
  have hmem := ModelTables.mem_submodules.mpr ⟨name, (stages.first_iff hprunes).mp hfirst⟩
  rw [stages.ownerOf_eq halone, BuildM.joinedOwners, if_pos hmem, joins?, htop, Option.bind_some,
    firstNodeOfKeyword, hb, Option.bind_some, hm', Option.bind_some,
    Node.argument_of_face hface]

omit halone in
/-- When that module is missing, this is recorded. -/
theorem mem_log_of_orphan
    (hshown : merged.log.policy.suppresses .unresolvableBelongsTo = false)
    (hn : schema.store.get? top = some n) (hfirst : schema.store.FirstNamed false name root)
    (hb : schema.store.firstOfKeyword top .belongsTo = some b)
    (hm : schema.store.get? b = some m)
    (hnone : (ModelTables.ofStore merged.store).modules.find? m.argument = none) :
    ⟨m.subject b, .unresolvableBelongsTo, missingModuleMessage m.argument⟩ ∈
      schema.log.entries := by
  have halike := stages.alike hprunes
  obtain ⟨n', hn', -⟩ := halike.exists_get?_left hn
  obtain ⟨m', hm', hface⟩ := halike.exists_get?_left hm
  have hsubject : m.subject b = m'.subject b :=
    congrArg (fun e : Element => Subject.statement b e.origin) (Node.element_of_face hface)
  rw [halike.firstOfKeyword] at hb
  rw [stages.topOf] at htop
  rw [Node.argument_of_face hface] at hnone
  refine stages.mem_log_of_join hshown ((stages.first_iff hprunes).mp hfirst) ?_
  rw [hsubject, Node.argument_of_face hface, joinFindings, htop]
  dsimp only
  rw [hb]
  dsimp only
  rw [hn', hm']
  dsimp only
  rw [hnone]
  exact List.mem_cons_self

end BelongsTo
end Stages

/-! ## Schemas -/

/-- The standard grammar demands a `belongs-to` of a submodule. -/
theorem Grammar.standard_contains_belongsTo :
    (standard.below .submodule).mandatorySingleton.contains Keyword.belongsTo.text = true := by
  decide +kernel

namespace Schema

/-- Where the submodule of a tree belongs.  The cases exclude each other. -/
inductive Belongs (schema : Schema) (root : RootId) (top : NodeId) (n : Node) : Prop
  /-- The first module with the name that its first `belongs-to` gives owns the submodule. -/
  | owned (b : NodeId) (m : Node) (owner : RootId) (uri : Option String)
      (belongsTo : schema.store.firstOfKeyword top .belongsTo = some b)
      (statement : schema.store.get? b = some m)
      (first : schema.store.FirstNamed false n.argument root)
      (module : schema.store.FirstNamed true m.argument owner)
      (ownerOf : schema.store.ownerOf root = some owner)
      (namespaceOf_owner : schema.store.namespaceOf owner = .ok uri)
      (namespaceOf : schema.store.namespaceOf root = .ok uri)
  /-- There is no module with that name. -/
  | orphaned (b : NodeId) (m : Node)
      (belongsTo : schema.store.firstOfKeyword top .belongsTo = some b)
      (statement : schema.store.get? b = some m)
      (first : schema.store.FirstNamed false n.argument root)
      (missing : ∀ q, ¬ schema.store.HasTreeNamed true m.argument q)
      (ownerOf : schema.store.ownerOf root = none)
      (namespaceOf : schema.store.namespaceOf root = .ok none)
      (recorded : ⟨m.subject b, .unresolvableBelongsTo, missingModuleMessage m.argument⟩ ∈
        schema.log.entries)
  /-- There is no `belongs-to`. -/
  | unattached
      (belongsTo : schema.store.firstOfKeyword top .belongsTo = none)
      (ownerOf : schema.store.ownerOf root = none)
      (namespaceOf : schema.store.namespaceOf root = .ok none)
      (recorded : missingFinding top n.element
          "Statement 'belongs-to' required under 'submodule'." ∈ schema.log.entries)
  /-- There is an earlier submodule with the same name. -/
  | repeated (b : NodeId)
      (belongsTo : schema.store.firstOfKeyword top .belongsTo = some b)
      (earlier : ∃ q, schema.store.HasTreeNamed false n.argument q ∧ q.index < root.index)
      (ownerOf : schema.store.ownerOf root = none)
      (namespaceOf : schema.store.namespaceOf root = .ok none)

variable {c : Configuration} {grammar : Grammar} {suppliers : Suppliers}
  {documents : List SchemaDocument} {schema : Schema}

/-! ### Names of documents -/

/-- The trees of a schema have the names of its documents. -/
theorem hasTreeNamed_iff (hproper : grammar.Proper) (hprunes : c.prunes = false)
    (hbuild : build c grammar suppliers documents = .ok schema) {isModule : Bool} {name : String}
    {root : RootId} : schema.store.HasTreeNamed isModule name root ↔
      ∃ d, documents[root.index]? = some d ∧ d.isModel = true ∧
        (d.element.name == "module") = isModule ∧ d.element.argument = name := by
  have hmodule : ∀ {x n} {d : SchemaDocument}, schema.store.get? x = some n →
      n.element = d.element → n.isKeyword .module = (d.element.name == "module") := by
    intro x n d hn helement
    rw [Bool.eq_iff_iff, isKeyword_iff_of_build hprunes hbuild hn, helement, beq_iff_eq]
    exact Iff.rfl
  constructor
  · rintro ⟨top, n, htop, hn, rfl, rfl⟩
    obtain ⟨merged, -, -, hsound, hstanding, ⟨stages⟩⟩ := exists_stages hbuild
    obtain ⟨d, hd, hmodel⟩ := hsound.crowned root.index top ((stages.topOf root).symm.trans htop)
    have helement := hstanding.element_top root.index top htop
    rw [elementOf_of_get? hn, hd] at helement
    have helement := Option.some.inj helement
    exact ⟨d, hd, hmodel, (hmodule hn helement).symm, congrArg Element.argument helement.symm⟩
  · rintro ⟨d, hd, hmodel, rfl, rfl⟩
    obtain ⟨top, n, htop, hn, helement⟩ := exists_top_of_build hproper hbuild hd hmodel
    exact ⟨top, n, htop, hn, hmodule hn helement, congrArg Element.argument helement⟩

/-! ### Where submodules belong -/

/-- Without pruning a submodule is owned by its module, or a finding tells why it is not, or it is
not the first one of its name.  Its statements have its namespace. -/
theorem belongs_of_build (hprunes : c.prunes = false) (hshown : ∀ k, c.silences k = false)
    (hbuild : build c Grammar.standard suppliers documents = .ok schema) {root : RootId}
    {top : NodeId} {n : Node} (htop : schema.store.topOf root = some top)
    (hn : schema.store.get? top = some n) (hsub : n.isKeyword .submodule = true) :
    schema.Belongs root top n ∧ ∀ x m, schema.store.get? x = some m → m.root = root →
      schema.store.namespaceOf root = .ok m.namespaceUri := by
  have o := (treesOf_of_build hbuild).owned
  refine ⟨?_, fun x m hm hroot =>
    hroot ▸ (attributed_of_build hbuild hm).namespaceOf_eq o.rooted hm⟩
  obtain ⟨merged, -, hobeys, ⟨stages⟩⟩ := exists_obeysGrammar Grammar.proper_standard hbuild
  have hsuppresses : ∀ k, c.policy.suppresses k = false := fun k => by
    rw [Configuration.suppresses_policy, hshown]
  have hlonely : schema.store.ownerOf root = none → schema.store.namespaceOf root = .ok none :=
    namespaceOf_of_ownerOf_eq_none htop hn hsub
  rcases hb : schema.store.firstOfKeyword top .belongsTo with _ | b
  · -- the grammar demands what is not there
    have howner := stages.ownerOf_of_no_belongsTo hprunes hobeys.alone htop hb
    exact .unattached hb howner (hlonely howner) (missing_of_build Grammar.proper_standard hprunes
      hbuild (hsuppresses _) hn hsub Grammar.standard_contains_belongsTo hb)
  obtain ⟨-, m, hm, -⟩ := mem_of_firstOfKeyword hb
  -- linking goes through the table of submodules, which has the first one of every name
  by_cases hfirst : schema.store.FirstNamed false n.argument root
  · have howner := stages.ownerOf_of_first hprunes hobeys.alone htop hfirst hb hm
    rcases hfind : (ModelTables.ofStore merged.store).modules.find? m.argument with _ | owner
    · rw [hfind] at howner
      refine .orphaned b m hb hm hfirst (fun q hq => ?_) howner (hlonely howner)
        (stages.mem_log_of_orphan hprunes htop (hobeys.policy ▸ hsuppresses _) hn hfirst hb hm
          hfind)
      exact ModelTables.not_hasTreeNamed_of_find?_modules hfind q
        ((stages.hasTreeNamed_iff hprunes).mp hq)
    · rw [hfind] at howner
      have hmodule := (stages.first_iff hprunes).mpr
        (ModelTables.find?_modules_iff.mp hfind)
      obtain ⟨tree, htree⟩ := o.affiliated.exists_tree howner
      obtain ⟨uri, huri⟩ := o.namespaceOf_eq_ok htree
      refine .owned b m owner uri hb hm hfirst hmodule howner huri ?_
      rw [namespaceOf_of_ownerOf htop hn hsub howner hmodule.hasTreeNamed, huri]
  · have hbears : schema.store.HasTreeNamed false n.argument root :=
      ⟨top, n, htop, hn, Node.isKeyword_module_of_submodule hsub, rfl⟩
    have howner := stages.ownerOf_of_not_first hprunes hobeys.alone fun name h =>
      hfirst (hbears.name_eq h.hasTreeNamed ▸ h)
    refine .repeated b hb ?_ howner (hlonely howner)
    by_contra hnone
    exact hfirst ⟨hbears, fun q hq => Nat.not_lt.mp fun hlt => hnone ⟨q, hq, hlt⟩⟩

/-- A submodule is built next to its module. -/
theorem belongs_of_build_includedSubmodule : ∃ schema top n,
    Configuration.template.impartial.prunes = false ∧
      (∀ k, Configuration.template.impartial.silences k = false) ∧
      build Configuration.template.impartial Grammar.standard {}
        [includingModule, includedSubmodule] = .ok schema ∧
      schema.store.topOf ⟨1⟩ = some top ∧ schema.store.get? top = some n ∧
      n.isKeyword .submodule = true ∧ schema.Belongs ⟨1⟩ top n ∧
      ∀ x m, schema.store.get? x = some m → m.root = ⟨1⟩ →
        schema.store.namespaceOf ⟨1⟩ = .ok m.namespaceUri := by
  have hprunes : Configuration.template.impartial.prunes = false := rfl
  have hshown : ∀ k, Configuration.template.impartial.silences k = false := fun _ => rfl
  obtain ⟨_, _, hnever⟩ | ⟨schema, hbuild, -⟩ :=
    treesOf_of_valid (c := Configuration.template.impartial) rfl Grammar.standard {}
      [includingModule, includedSubmodule]
  · cases hnever
  obtain ⟨top, n, htop, hn, helement⟩ := exists_top_of_build Grammar.proper_standard hbuild
    (i := 1) (d := includedSubmodule) rfl rfl
  have hsub : n.isKeyword .submodule = true := by
    rw [isKeyword_iff_of_build hprunes hbuild hn, helement]
    rfl
  exact ⟨schema, top, n, hprunes, hshown, hbuild, htop, hn, hsub,
    belongs_of_build hprunes hshown hbuild htop hn hsub⟩

/-- A submodule that is built once more belongs to no module, although there is one with the name
that its `belongs-to` gives. -/
theorem ownerOf_includedSubmodule_again : ∃ schema top n b m,
    Configuration.template.impartial.prunes = false ∧
      (∀ k, Configuration.template.impartial.silences k = false) ∧
      build Configuration.template.impartial Grammar.standard {}
        [includingModule, includedSubmodule, includedSubmodule] = .ok schema ∧
      schema.store.topOf ⟨2⟩ = some top ∧ schema.store.get? top = some n ∧
      n.isKeyword .submodule = true ∧ schema.store.firstOfKeyword top .belongsTo = some b ∧
      schema.store.get? b = some m ∧ schema.store.FirstNamed true m.argument ⟨0⟩ ∧
      schema.store.ownerOf ⟨2⟩ = none := by
  have hprunes : Configuration.template.impartial.prunes = false := rfl
  obtain ⟨_, _, hnever⟩ | ⟨schema, hbuild, -⟩ :=
    treesOf_of_valid (c := Configuration.template.impartial) rfl Grammar.standard {}
      [includingModule, includedSubmodule, includedSubmodule]
  · cases hnever
  have hbears : ∀ {isModule name root}, schema.store.HasTreeNamed isModule name root ↔ _ :=
    hasTreeNamed_iff Grammar.proper_standard hprunes hbuild
  obtain ⟨top, n, htop, hn, helement⟩ := exists_top_of_build Grammar.proper_standard hbuild
    (i := 2) (d := includedSubmodule) rfl rfl
  have hsub : n.isKeyword .submodule = true := by
    rw [isKeyword_iff_of_build hprunes hbuild hn, helement]
    rfl
  obtain ⟨b, m, hb, hm, hchild, hname⟩ := exists_child_of_build Grammar.proper_standard hprunes
    hbuild hn hsub Grammar.standard_contains_belongsTo (helement ▸ rfl)
  have hargument : m.argument = "m" := by
    have hall : ∀ e ∈ includedSubmodule.element.children, e.name = "belongs-to" →
        e.argument = "m" := by decide
    exact hall m.element (helement ▸ hchild) hname
  have hfirst : schema.store.FirstNamed true m.argument ⟨0⟩ :=
    ⟨hbears.mpr ⟨includingModule, rfl, rfl, rfl, hargument.symm⟩, fun _ _ => Nat.zero_le _⟩
  refine ⟨schema, top, n, b, m, hprunes, fun _ => rfl, hbuild, htop, hn, hsub, hb, hm, hfirst, ?_⟩
  obtain ⟨merged, -, hobeys, ⟨stages⟩⟩ := exists_obeysGrammar Grammar.proper_standard hbuild
  refine stages.ownerOf_of_not_first hprunes hobeys.alone fun name h => ?_
  -- the tree before this one has the same name
  obtain ⟨d, hd, -, -, rfl⟩ := hbears.mp h.hasTreeNamed
  have hle := h.le ⟨1⟩ (hbears.mpr ⟨includedSubmodule, rfl, rfl, rfl,
    congrArg (·.element.argument) (Option.some.inj hd)⟩)
  exact absurd hle (by decide)

end Schema
end StatementForest
