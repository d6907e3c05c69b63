import StatementForest.Proofs.Schema.GrammarConformance

/-!
# Attributes persist

Attributes are assigned before pruning takes statements out.  What decides about them are the
statements for a namespace, a status and a config value, and the grammar gives none of these a
condition on features.  So none of them is taken out without its parent, and a statement that is
left has the attributes that would be found for it in what is left.

Main results:

- Theorem `FeatureRegistry.Pruned.childrenOfKeyword`: statements without conditions stay with
  their parents.
- Theorem `FeatureRegistry.Pruned.inherits`: the same is handed down to what is left.
- Theorem `Schema.attributed_of_build`: every statement of a schema has the attributes that are
  found for it in the schema.
- Theorem `Schema.applyAttributes_of_build`: so assigning attributes once more changes nothing.

Current gaps:

- The grammar is the standard one.  Another grammar may put conditions on the statements that
  attributes are found from, and then pruning may take these out alone.
-/

namespace StatementForest

open Store

/-- The statements that attributes are found from. -/
def Keyword.deciding : List Keyword := [.namespaceStatement, .status, .config]

/-- What attributes are found from does not depend on features. -/
def Store.Unconditional (s : Store) : Prop :=
  ∀ k ∈ Keyword.deciding, ∀ x, ∀ c ∈ s.childrenOfKeyword x k,
    s.childrenOfKeyword c .ifFeature = []

/-- The four attributes of a statement. -/
def Node.attributes (n : Node) : Option String × Option Conformance × Status × Bool :=
  (n.namespaceUri, n.conformance, n.status, n.config)

/-- The four attributes of a statement are those that were written. -/
theorem Node.attributes_withAttributes (n : Node) (uri : Option String) (conformance : Conformance)
    (status : Status) (config : Bool) :
    (n.withAttributes uri conformance status config).attributes =
      (uri, some conformance, status, config) :=
  rfl

/-- Nothing changes when a statement gets the attributes that it has. -/
theorem Node.withAttributes_eq_self {n : Node} {uri : Option String} {conformance : Conformance}
    {status : Status} {config : Bool}
    (h : n.attributes = (uri, some conformance, status, config)) :
    n.withAttributes uri conformance status config = n := by
  obtain ⟨⟩ := n
  cases h
  rfl

/-- A statement has the attributes that are found from the tree in which it stands. -/
def Store.Attributed (s : Store) (x : NodeId) (n : Node) : Prop :=
  ∃ root tree top uri status config, s.tree? root = some tree ∧ tree.top = some top ∧
    s.namespaceOf root = .ok uri ∧ s.Inherits statusBelow top .current x status ∧
    s.Inherits configBelow top true x config ∧
    n.attributes = (uri, some tree.conformance, status, config)

/-! ## Finding attributes -/

/-- A statement below a top has got the attributes that are found for it. -/
theorem StoreM.AttributesAssigned.attributed {s t : Store} (h : AttributesAssigned s.treeIds s t)
    (o : s.Owned)
    {root : RootId} {top x : NodeId} {n : Node} (htop : s.topOf root = some top)
    (hbelow : s.Below top x) (hn : t.get? x = some n) : t.Attributed x n := by
  obtain ⟨tree, htree, htop⟩ := Option.bind_eq_some_iff.mp htop
  obtain ⟨uri, huri⟩ := o.namespaceOf_eq_ok htree
  obtain ⟨status, hstatus⟩ := Inherits.exists_of_below hbelow statusBelow .current
  obtain ⟨config, hconfig⟩ := Inherits.exists_of_below hbelow configBelow true
  have hroot : root ∈ s.treeIds := Renamed.mem_treeIds_iff.mpr (by rw [htree]; rfl)
  have hdressed :=
    h.attributesAssigned root hroot tree top uri x status config htree htop huri hstatus hconfig
  rw [hn, eq_comm, Option.map_eq_some_iff] at hdressed
  obtain ⟨m, -, rfl⟩ := hdressed
  refine ⟨root, tree, top, uri, status, config, ?_, htop, ?_, ?_, ?_,
    m.attributes_withAttributes ..⟩
  · rw [tree?, h.parallel.trees, ← tree?, htree]
  · rw [h.parallel.namespaceOf, huri]
  · exact hstatus.of_parallel h.parallel readsLinksOnly_statusBelow
  · exact hconfig.of_parallel h.parallel readsLinksOnly_configBelow

/-- Statements that have the attributes that are found for them get the same ones once more. -/
theorem StoreM.applyAttributes_eq_self {s : Store} (o : s.Owned)
    (h : ∀ x n, s.get? x = some n → s.Attributed x n) :
    StoreM.applyAttributes s = (.ok (), s) := by
  have hspec := applyAttributes_spec o
  unfold Succeeds Yields at hspec
  rcases hrun : applyAttributes s with ⟨e | _, t⟩ <;> rw [hrun] at hspec
  · exact hspec.elim
  refine congrArg (Prod.mk _)
    (Store.eq_of_get? hspec.parallel.size hspec.parallel.trees fun x => ?_)
  rcases hn : s.get? x with _ | n
  · exact hspec.parallel.get?_eq_none hn
  obtain ⟨root, tree, top, uri, status, config, htree, htop, huri, hstatus, hconfig, hattributes⟩ :=
    h x n hn
  have hroot : root ∈ s.treeIds := Renamed.mem_treeIds_iff.mpr (by rw [htree]; rfl)
  rw [hspec.attributesAssigned root hroot tree top uri x status config htree htop huri hstatus
    hconfig, hn,
    Option.map_some, n.withAttributes_eq_self hattributes]

/-- Recording findings does not change the attributes of a statement, or how they are found. -/
theorem Store.Renamed.attributed {a b : Store} (h : a.Renamed .refl b) {x : NodeId} {n m : Node}
    (hnm : n.Renamed .refl m) (hn : a.Attributed x n) : b.Attributed x m := by
  obtain ⟨root, tree, top, uri, status, config, htree, htop, huri, hstatus, hconfig, hattributes⟩ :=
    hn
  obtain ⟨tree', htree', hlone⟩ := h.exists_tree? htree
  have htop' : tree'.top = tree.top := (congrArg Tree.top hlone).trans (congrFun Option.map_id _)
  have hconformance : tree'.conformance = tree.conformance :=
    (congrArg Tree.conformance hlone :)
  refine ⟨root, tree', top, uri, status, config, htree', htop'.trans htop, h.namespaceOf huri,
    hstatus.of_renamed h (ignoresNumbers_statusBelow _),
      hconfig.of_renamed h (ignoresNumbers_configBelow _), ?_⟩
  have hbare : m.attributes = n.attributes := (congrArg Node.attributes hnm.bare_eq :)
  rw [hbare, hattributes, hconformance]

/-! ## What pruning leaves -/

namespace FeatureRegistry.Pruned

variable {r : FeatureRegistry} {s t : Store} {starts : List NodeId} {findings : List Finding}
  {x top : NodeId} {α : Type}

/-- A statement that is left after pruning keeps its parent. -/
theorem parentOf (h : Pruned r starts s t findings) (w : s.Wired) (hx : t.contains x = true) :
    t.parentOf x = s.parentOf x := by
  obtain ⟨n, children, data, hn, hn'⟩ := h.exists_get? w hx
  rw [parentOf_of_get? hn, parentOf_of_get? hn']

/-- The top of a tree is never taken out. -/
theorem contains_top (h : Pruned r starts s t findings) (ho : s.Rooted) {root : RootId}
    (htop : s.topOf root = some top) : t.contains top = true := by
  have hlive := contains_of_rootOf (ho.rootOf_top root top htop)
  rw [← Bool.not_eq_false, h.contains_eq_false_iff hlive]
  rintro ⟨p, c, -, hc, -, hbelow⟩
  cases hbelow with
  | self =>
    rw [ho.parentOf_top root _ htop] at hc
    cases hc
  | under hp _ =>
    rw [ho.parentOf_top root _ htop] at hp
    cases hp

section Unconditional

variable (h : Pruned r starts s t findings) (w : s.Wired) (hfree : s.Unconditional)

include h w hfree

/-- Statements without conditions stay with their parents. -/
theorem childrenOfKeyword {k : Keyword} (hk : k ∈ Keyword.deciding)
    (hx : t.contains x = true) : t.childrenOfKeyword x k = s.childrenOfKeyword x k := by
  obtain ⟨n, hn⟩ := contains_iff.mp (h.contains_of_contains hx)
  rw [Store.childrenOfKeyword, Store.childrenOfKeyword, childrenWhere, childrenWhere,
    childrenOf_of_get? (h.get?_of_contains w hn hx), childrenOf_of_get? hn, List.filter_filter]
  refine List.filter_congr fun c hc => ?_
  rcases hlive : t.contains c with _ | _
  · -- a child that is gone was taken out on its own account, so it had a condition
    rw [Bool.and_false, eq_comm, ← Bool.not_eq_true]
    intro hkeyword
    rw [← childrenOf_of_get? hn] at hc
    have hcond := hfree k hk x c (List.mem_filter.mpr ⟨hc, hkeyword⟩)
    rw [h.contains_eq_false_iff (w.contains_child hc),
      removes_child_iff (w.parentOf_of_mem hc)] at hlive
    obtain ⟨-, hexcludes⟩ | hremoves := hlive
    · rw [excludes, (admits_of_unconditional hcond).1, Bool.not_true, Bool.and_false] at hexcludes
      cases hexcludes
    · rw [← h.contains_eq_false_iff (h.contains_of_contains hx), hx] at hremoves
      cases hremoves
  · obtain ⟨m, children, data, hm, hm'⟩ := h.exists_get? w hlive
    rw [hm, hm']
    exact Bool.and_true _

/-- What does not depend on children and data is found out about the same child. -/
theorem map_firstNodeOfKeyword {w' : Node → α}
    (hw : ∀ n children data, w' { n with children, data } = w' n) {k : Keyword}
    (hk : k ∈ Keyword.deciding) (hx : t.contains x = true) :
    (t.firstNodeOfKeyword x k).map w' = (s.firstNodeOfKeyword x k).map w' := by
  have hchildren := h.childrenOfKeyword w hfree hk hx
  rw [firstNodeOfKeyword, firstNodeOfKeyword, firstOfKeyword, firstOfKeyword, ← hchildren]
  rcases hlist : t.childrenOfKeyword x k with _ | ⟨c, rest⟩
  · rfl
  have hmem : c ∈ t.childrenOfKeyword x k := by
    rw [hlist]
    exact List.mem_cons_self
  have hlive : t.contains c = true := by
    obtain ⟨m, hm, -⟩ := (Option.any_eq_true _ _).mp (List.mem_filter.mp hmem).2
    exact contains_iff.mpr ⟨m, hm⟩
  obtain ⟨m, children, data, hm, hm'⟩ := h.exists_get? w hlive
  rw [List.head?_cons, Option.bind_some, Option.bind_some, hm, hm', Option.map_some,
    Option.map_some, hw]

/-- The status that is handed down to what is left is the same. -/
theorem statusBelow (hx : t.contains x = true) (status : Status) :
    t.statusBelow x status = s.statusBelow x status := by
  rw [Store.statusBelow, Store.statusBelow, declaredStatus_eq, declaredStatus_eq,
    h.map_firstNodeOfKeyword w hfree (fun _ _ _ => rfl) (by decide) hx]

/-- The config that is handed down to what is left is the same. -/
theorem configBelow (hx : t.contains x = true) (config : Bool) :
    t.configBelow x config = s.configBelow x config := by
  obtain ⟨n, children, data, hn, hn'⟩ := h.exists_get? w hx
  rw [Store.configBelow, Store.configBelow, declaresConfigFalse_eq, declaresConfigFalse_eq,
    h.map_firstNodeOfKeyword w hfree (fun _ _ _ => rfl) (by decide) hx, hn, hn']
  rfl

/-- The namespace of a tree is found from statements that are left. -/
theorem namespaceOf (ho : s.Rooted) {root : RootId} {uri : Option String}
    (huri : s.namespaceOf root = .ok uri) : t.namespaceOf root = .ok uri := by
  have htree : ∀ q, t.tree? q = s.tree? q := fun q => by rw [tree?, tree?, h.trees]
  have howning : t.owningTree root = s.owningTree root := by
    rw [owningTree, owningTree, tree, tree, htree]
    rcases hroot : s.tree? root with _ | tree
    · rfl
    simp only [bind, Except.bind]
    rcases htop : tree.top with _ | top
    · rfl
    have hlive := h.contains_top ho (Option.bind_eq_some_iff.mpr ⟨tree, hroot, htop⟩)
    obtain ⟨n, children, data, hn, hn'⟩ := h.exists_get? w hlive
    dsimp only
    rw [node_of_get? hn, node_of_get? hn']
    rfl
  rw [← huri, Store.namespaceOf, Store.namespaceOf, howning]
  rcases s.owningTree root with e | _ | owner
  · rfl
  · rfl
  simp only [bind, Except.bind, tree, htree]
  rcases howner : s.tree? owner with _ | tree
  · rfl
  dsimp only
  rcases htop : tree.top with _ | top
  · rfl
  have hlive := h.contains_top ho (Option.bind_eq_some_iff.mpr ⟨tree, howner, htop⟩)
  obtain ⟨n, children, data, hn, hn'⟩ := h.exists_get? w hlive
  dsimp only
  rw [node_of_get? hn, node_of_get? hn']
  exact congrArg Except.ok (h.map_firstNodeOfKeyword w hfree (fun _ _ _ => rfl) (by decide) hlive)

end Unconditional

/-- The same is handed down to what is left. -/
theorem inherits (h : Pruned r starts s t findings) (w : s.Wired) (wt : t.Wired)
    {rule : Store → NodeId → α → α}
    (hrule : ∀ x, t.contains x = true → ∀ a, rule t x a = rule s x a) {inherited value : α}
    (hs : s.Inherits rule top inherited x value) (hx : t.contains x = true) :
    t.Inherits rule top inherited x value := by
  induction hs with
  | top =>
    rw [← hrule top hx]
    exact .top
  | @child x c value _ hc ih =>
    have hct : t.parentOf c = some x := by rw [h.parentOf w hx, hc]
    rw [← hrule c hx]
    refine .child (ih ?_) hct
    obtain ⟨n, hn⟩ := contains_iff.mp hx
    rw [parentOf_of_get? hn] at hct
    exact wt.contains_of_parent hn hct

/-- What is left has its attributes, and they are found as before. -/
theorem attributed (h : Pruned r starts s t findings) (o : s.Owned) (wt : t.Wired)
    (hfree : s.Unconditional) {n m : Node} (hn : s.get? x = some n) (hm : t.get? x = some m)
    (hattributed : s.Attributed x n) : t.Attributed x m := by
  obtain ⟨root, tree, top, uri, status, config, htree, htop, huri, hstatus, hconfig, hattributes⟩ :=
    hattributed
  have hx : t.contains x = true := contains_iff.mpr ⟨m, hm⟩
  rw [h.get?_of_contains o.wired hn hx] at hm
  cases hm
  refine ⟨root, tree, top, uri, status, config, ?_, htop,
    h.namespaceOf o.wired hfree o.rooted huri, ?_, ?_, hattributes⟩
  · rw [tree?, h.trees, ← tree?, htree]
  · exact h.inherits o.wired wt (fun _ hy => h.statusBelow o.wired hfree hy) hstatus hx
  · exact h.inherits o.wired wt (fun _ hy => h.configBelow o.wired hfree hy) hconfig hx

end FeatureRegistry.Pruned

/-! ## Schemas -/

namespace Schema

variable {c : Configuration} {grammar : Grammar} {suppliers : Suppliers}
  {documents : List SchemaDocument} {schema : Schema} {merged : BuildState}

/-- No grammar that has no conditions below the statements that attributes are found from lets
them depend on features. -/
theorem unconditional_of_obeysGrammar {policy : SeverityPolicy}
    (hs : Sound suppliers documents merged)
    (ho : ObeysGrammar grammar policy documents merged)
    (hgrammar : ∀ k ∈ Keyword.deciding,
      (grammar.below k).allows Keyword.ifFeature.text = false) :
    merged.store.Unconditional := by
  intro k hk x y hy
  obtain ⟨n, hn, hkeyword⟩ := (Option.any_eq_true _ _).mp (List.mem_filter.mp hy).2
  exact ho.childrenOfKeyword_eq_nil hs hn (Node.isKeyword_iff.mp hkeyword) (hgrammar k hk)

/-- Every statement of a schema has the attributes that are found for it, when the grammar has no
conditions below the statements that they are found from. -/
theorem attributed_of_proper (hproper : grammar.Proper)
    (hgrammar : ∀ k ∈ Keyword.deciding,
      (grammar.below k).allows Keyword.ifFeature.text = false)
    (hbuild : build c grammar suppliers documents = .ok schema) {x : NodeId} {n : Node}
    (hn : schema.store.get? x = some n) : schema.store.Attributed x n := by
  obtain ⟨merged, hsound, hobeys, ⟨stages⟩⟩ := exists_obeysGrammar hproper hbuild
  have hfree : stages.judged.Unconditional := by
    intro k hk x y hy
    rw [stages.alike_judged.childrenOfKeyword] at hy
    rw [stages.alike_judged.childrenOfKeyword]
    exact unconditional_of_obeysGrammar hsound hobeys hgrammar k hk x y hy
  have hlive := contains_iff.mpr ⟨n, hn⟩
  -- the statement at every stage, from the last one back
  obtain ⟨p, hp⟩ := contains_iff.mp (((Alike.of_renamed stages.ends).contains x).symm.trans hlive)
  obtain ⟨q, hq⟩ := contains_iff.mp (stages.prunes.contains_of_contains (contains_iff.mpr ⟨p, hp⟩))
  obtain ⟨d, hd⟩ := contains_iff.mp
    (((Alike.of_renamed stages.callsRightly).contains x).symm.trans (contains_iff.mpr ⟨q, hq⟩))
  obtain ⟨q', hq', hdq⟩ := stages.callsRightly.exists_get? hd
  obtain ⟨n', hn', hpn⟩ := stages.ends.exists_get? hp
  cases hq.symm.trans hq'
  cases hn.symm.trans hn'
  -- its attributes at every stage, from the one where they are found on
  obtain ⟨root, top, htop, hbelow⟩ := hsound.treesOf.exists_top (stages.contains_merged hlive)
  have hdressed := stages.dresses.attributed stages.owned_joined
    ((stages.topOf_joined root).trans htop) (stages.alike_joined.below_iff.mpr hbelow) hd
  have hjudged := stages.callsRightly.attributed hdq hdressed
  have hpruned := stages.prunes.attributed stages.owned_judged stages.owned_pruned.wired hfree hq hp
    hjudged
  exact stages.ends.attributed hpn hpruned

/-- The standard grammar gives the statements that attributes are found from no conditions. -/
theorem attributed_of_build
    (hbuild : build c Grammar.standard suppliers documents = .ok schema) {x : NodeId} {n : Node}
    (hn : schema.store.get? x = some n) : schema.store.Attributed x n :=
  attributed_of_proper Grammar.proper_standard (by decide) hbuild hn

/-- In a schema that was built with the standard grammar, whether it was pruned or not, every
statement has the attributes that are found for it in the schema itself, and so assigning them
once more changes nothing. -/
theorem applyAttributes_of_build
    (hbuild : build c Grammar.standard suppliers documents = .ok schema) :
    (∀ x n, schema.store.get? x = some n → schema.store.Attributed x n) ∧
      StoreM.applyAttributes schema.store = (.ok (), schema.store) := by
  have hattributed : ∀ x n, schema.store.get? x = some n → schema.store.Attributed x n :=
    fun _ _ hn => attributed_of_build hbuild hn
  exact ⟨hattributed,
    StoreM.applyAttributes_eq_self (treesOf_of_build hbuild).owned hattributed⟩

/-- A module with a leaf that depends on a feature that there is not. -/
def gatedDocument : SchemaDocument where
  element := { plainElement "module" "m" with
    children := [plainElement "namespace" "urn:m", plainElement "prefix" "m",
      { plainElement "leaf" "l" with
        children := [plainElement "type" "string", plainElement "config" "false",
          plainElement "status" "deprecated", plainElement "if-feature" "f"] }] }
  source := none
  conformance := .implement

/-- A module is pruned, and the attributes of what is left stay as they are. -/
theorem applyAttributes_of_build_gatedDocument :
    ∃ schema, build { Configuration.template with pruning := some true } Grammar.standard {}
        [gatedDocument] = .ok schema ∧
      (∀ x n, schema.store.get? x = some n → schema.store.Attributed x n) ∧
      StoreM.applyAttributes schema.store = (.ok (), schema.store) := by
  have hvalid : { Configuration.template with pruning := some true }.validate = .ok () := by rfl
  obtain ⟨_, _, hnever⟩ | ⟨schema, hbuild, -⟩ :=
    treesOf_of_valid hvalid Grammar.standard {} [gatedDocument]
  · cases hnever
  · exact ⟨schema, hbuild, applyAttributes_of_build hbuild⟩

end Schema
end StatementForest
