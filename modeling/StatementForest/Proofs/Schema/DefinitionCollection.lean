import StatementForest.Proofs.Feature.PruningRenaming
import StatementForest.Proofs.Collection.RollOrder
import StatementForest.Proofs.Schema.BuildOutcome

/-!
# Collecting definitions from trees

Features and identities are collected from the tops of all trees, each into a roll.  What is
collected from one tree depends on that tree and on its namespace.  When different trees
define different keys, collecting from the trees in another order and under other numbers
gives the same entries in another order.

Main results:

- Theorem `FeatureRegistry.ofTrees_eq`, `IdentityCollection.ofTrees_eq`: what is collected.
- Theorem `Store.Renamed.map_definitions`: trees under new numbers define the same.
- Theorem `FeatureRegistry.perm_known`, `IdentityCollection.perm_collected`: the entries of
  both are the same, in some order.
-/

namespace StatementForest

open Store

/-- The key under which a feature or an identity is known. -/
def Node.definedKey (n : Node) : Key := ⟨n.element.scope.home, n.argument⟩

namespace Store

/-- The children of a keyword of the top of a tree. -/
def definitions (s : Store) (k : Keyword) (root : RootId) : List (NodeId × Node) :=
  match s.topOf root with
  | none => []
  | some top => (s.childrenOfKeyword top k).filterMap fun x => (s.get? x).map (x, ·)

/-- The namespace of a tree, or the empty text. -/
def uriOf (s : Store) (root : RootId) : String :=
  match s.namespaceOf root with
  | .ok uri => uri.getD ""
  | .error _ => ""

/-- Different trees do not define one key. -/
def Apart (s : Store) (k : Keyword) : Prop :=
  ∀ q r, q ≠ r → ∀ d ∈ s.definitions k q, ∀ e ∈ s.definitions k r,
    d.2.definedKey ≠ e.2.definedKey

variable {s : Store} {k : Keyword} {root : RootId}

/-- The namespace of a tree is the one that is found, or empty. -/
theorem uriOf_of_ok {uri : Option String} (h : s.namespaceOf root = .ok uri) :
    s.uriOf root = uri.getD "" := by
  rw [uriOf, h]

/-- What is defined in a tree is a child of its top. -/
theorem mem_definitions {x : NodeId} {n : Node} : (x, n) ∈ s.definitions k root ↔
    ∃ top, s.topOf root = some top ∧ x ∈ s.childrenOfKeyword top k ∧ s.get? x = some n := by
  rw [definitions]
  rcases s.topOf root with _ | top
  · simp
  · simp only [List.mem_filterMap, Option.map_eq_some_iff, Prod.mk.injEq, Option.some.injEq,
      exists_eq_left']
    constructor
    · rintro ⟨y, hy, m, hm, rfl, rfl⟩
      exact ⟨hy, hm⟩
    · rintro ⟨hx, hn⟩
      exact ⟨x, hx, n, hn, rfl, rfl⟩

namespace Renamed

variable {f : Renaming} {a b : Store}

/-- What does not depend on numbers, or follows them, is found out about the definitions of
both trees. -/
theorem map_definitions (h : Renamed f a b) {β : Type} {w w' : NodeId × Node → β}
    (hw : ∀ x n m, n.Renamed f m → w' (f.node x, m) = w (x, n)) (k : Keyword) (root : RootId) :
    (b.definitions k (f.tree root)).map w' = (a.definitions k root).map w := by
  rw [definitions, definitions, h.topOf]
  rcases a.topOf root with _ | top
  · rfl
  simp only [Option.map_some]
  rw [h.childrenOfKeyword, List.filterMap_map, List.map_filterMap, List.map_filterMap]
  refine List.filterMap_congr fun x _ => ?_
  rw [Function.comp_apply, Option.map_map, Option.map_map]
  rcases hn : a.get? x with _ | n
  · rw [h.get?_eq_none hn]
    rfl
  · obtain ⟨m, hm, hnm⟩ := h.exists_get? hn
    rw [hm]
    exact congrArg some (hw x n m hnm)

/-- A renamed tree has the same namespace. -/
theorem uriOf (h : Renamed f a b) (o : a.Owned) (hroot : root ∈ a.treeIds) :
    b.uriOf (f.tree root) = a.uriOf root := by
  obtain ⟨tree, htree⟩ := exists_tree_of_mem_treeIds hroot
  obtain ⟨uri, huri⟩ := o.namespaceOf_eq_ok htree
  rw [uriOf_of_ok huri, uriOf_of_ok (h.namespaceOf huri)]

/-- A renamed definition has the same key. -/
theorem definedKey {n m : Node} (hnm : n.Renamed f m) : m.definedKey = n.definedKey := by
  rw [Node.definedKey, Node.definedKey, hnm.element, hnm.argument]

end Renamed
end Store

/-! ## Features -/

/-- The same entry under the new number of its statement. -/
def FeatureEntry.rename (f : Renaming) (e : FeatureEntry) : FeatureEntry :=
  { e with node := f.node e.node }

namespace FeatureRegistry

/-- What a tree adds to the known features. -/
def items (s : Store) (root : RootId) : List (Key × FeatureEntry) :=
  (s.definitions .feature root).map fun d => (d.2.definedKey, entryOf s (s.uriOf root) d.1 d.2)

/-- The features of all trees. -/
def known (s : Store) : Roll Key FeatureEntry := Roll.ofItems (s.treeIds.flatMap (items s))

variable {s : Store} {root : RootId}

/-- Collecting the features of a tree writes what it adds. -/
theorem collect_eq (o : s.Owned) {tree : Tree} (h : s.tree? root = some tree)
    (r : FeatureRegistry) :
    r.collect s root = .ok { r with entries := r.entries.writeAll (items s root) } := by
  obtain ⟨uri, huri⟩ := o.namespaceOf_eq_ok h
  have htop : s.topOf root = tree.top := by rw [topOf, h, Option.bind_some]
  have hinsert : ∀ (entries : List FeatureEntry) (r : FeatureRegistry),
      entries.foldl insert r =
        { r with entries := r.entries.writeAll (entries.map fun e => (e.feature.key, e)) } := by
    intro entries
    induction entries with
    | nil => exact fun _ => rfl
    | cons e rest ih => exact fun r => ih (r.insert e)
  rw [collect, Store.tree, h, items, definitions, htop, uriOf_of_ok huri]
  simp only [bind, Except.bind]
  rcases tree.top with _ | top
  · rfl
  simp only [huri]
  have hentries : ((s.childrenOfKeyword top .feature).filterMap fun id =>
        (s.get? id).map (entryOf s (uri.getD "") id)).map (fun e => (e.feature.key, e)) =
      ((s.childrenOfKeyword top .feature).filterMap fun x => (s.get? x).map (x, ·)).map
        fun d => (d.2.definedKey, entryOf s (uri.getD "") d.1 d.2) := by
    rw [List.map_filterMap, List.map_filterMap]
    refine List.filterMap_congr fun x _ => ?_
    rcases s.get? x with _ | n <;> rfl
  rw [hinsert, hentries]
  rfl

/-- The features of all trees are collected. -/
theorem ofTrees_eq (o : s.Owned) : ofTrees s s.treeIds = .ok { entries := known s } := by
  have hfold : ∀ (roots : List RootId) (r : FeatureRegistry),
      (∀ q ∈ roots, q ∈ s.treeIds) → roots.foldlM (fun r root => r.collect s root) r =
        .ok { r with entries := r.entries.writeAll (roots.flatMap (items s)) } := by
    intro roots
    induction roots with
    | nil => exact fun _ _ => rfl
    | cons q rest ih =>
      intro r hmem
      obtain ⟨tree, htree⟩ := exists_tree_of_mem_treeIds (hmem q List.mem_cons_self)
      rw [List.foldlM_cons, collect_eq o htree, List.flatMap_cons, Roll.writeAll_append]
      exact ih _ fun q' hq' => hmem q' (List.mem_cons_of_mem _ hq')
  exact hfold s.treeIds {} fun _ hq => hq

variable {f : Renaming} {a b : Store}

/-- The features of a tree under new numbers. -/
theorem items_renamed (h : a.Renamed f b) (o : a.Owned) (hroot : root ∈ a.treeIds) :
    items b (f.tree root) = (items a root).map (Prod.map id (FeatureEntry.rename f)) := by
  rw [items, items, h.uriOf o hroot, List.map_map]
  refine h.map_definitions (fun x n m hnm => ?_) _ _
  rw [Function.comp_apply, Prod.map_apply, Renamed.definedKey hnm, entryOf, entryOf,
    FeatureEntry.rename, h.conditionsOf, hnm.element, hnm.argument]
  rfl

/-- Both stores have the same features, in some order. -/
theorem perm_known (h : a.Renamed f b) (o : a.Owned) (hapart : a.Apart .feature) :
    (known b).entries.Perm
      ((known a).entries.map (Prod.map id (FeatureEntry.rename f))) := by
  refine Roll.perm_ofItems h.perm_treeIds (fun _ hq => items_renamed h o hq) ?_
  refine (Renamed.nodup_treeIds a).imp fun {q r} hne e he e' he' => ?_
  obtain ⟨d, hd, rfl⟩ := List.mem_map.mp he
  obtain ⟨d', hd', rfl⟩ := List.mem_map.mp he'
  exact hapart q r hne d hd d' hd'

end FeatureRegistry

/-! ## Identities -/

/-- The same use of a base under the new number of its statement. -/
def BaseUse.rename (f : Renaming) (use : BaseUse) : BaseUse :=
  { use with node := f.node use.node }

/-- The same entry under the new numbers of its statements. -/
def IdentityEntry.rename (f : Renaming) (e : IdentityEntry) : IdentityEntry :=
  { e with node := f.node e.node, bases := e.bases.map (BaseUse.rename f) }

namespace IdentityCollection

/-- What a tree adds to the identities. -/
def items (s : Store) (root : RootId) : List (Key × IdentityEntry) :=
  (s.definitions .identity root).map fun d => (d.2.definedKey, entryOf s (s.uriOf root) d.1 d.2)

/-- The findings about the bases of the identities of a tree. -/
def unresolvedOf (s : Store) (root : RootId) : List Finding :=
  (s.definitions .identity root).flatMap fun d =>
    unresolved (basesOf s d.2.element.scope.home d.1)

/-- The identities of all trees. -/
def collected (s : Store) : Roll Key IdentityEntry := Roll.ofItems (s.treeIds.flatMap (items s))

variable {s : Store} {root : RootId}

/-- Collecting the identities of a tree writes what it adds. -/
theorem collect_eq (o : s.Owned) {tree : Tree} (h : s.tree? root = some tree)
    (c : IdentityCollection) :
    c.collect s root = .ok (⟨c.entries.writeAll (items s root)⟩, unresolvedOf s root) := by
  obtain ⟨uri, huri⟩ := o.namespaceOf_eq_ok h
  have htop : s.topOf root = tree.top := by rw [topOf, h, Option.bind_some]
  have hinsert : ∀ (entries : List IdentityEntry) (c : IdentityCollection),
      entries.foldl insert c =
        ⟨c.entries.writeAll (entries.map fun e => (e.identity.key, e))⟩ := by
    intro entries
    induction entries with
    | nil => exact fun _ => rfl
    | cons e rest ih => exact fun c => ih (c.insert e)
  rw [collect, Store.tree, h, items, unresolvedOf, definitions, htop, uriOf_of_ok huri]
  simp only [bind, Except.bind]
  rcases tree.top with _ | top
  · rfl
  simp only [huri]
  rw [hinsert, List.map_map]
  rfl

/-- A step that collects from one tree is taken for each of some trees. -/
theorem foldlM_collect {step : IdentityCollection × List Finding → RootId →
      Except Failure (IdentityCollection × List Finding)} {roots : List RootId}
    (hstep : ∀ q ∈ roots, ∀ c findings, step (c, findings) q =
      .ok (⟨c.entries.writeAll (items s q)⟩, findings ++ unresolvedOf s q))
    (c : IdentityCollection) (findings : List Finding) :
    roots.foldlM step (c, findings) = .ok (⟨c.entries.writeAll (roots.flatMap (items s))⟩,
      findings ++ roots.flatMap (unresolvedOf s)) := by
  induction roots generalizing c findings with
  | nil =>
    rw [List.flatMap_nil, List.flatMap_nil, List.append_nil]
    rfl
  | cons q rest ih =>
    rw [List.foldlM_cons, hstep q List.mem_cons_self, List.flatMap_cons, List.flatMap_cons,
      Roll.writeAll_append, ← List.append_assoc]
    exact ih (fun q' hq' => hstep q' (List.mem_cons_of_mem _ hq')) _ _

/-- The identities of some trees are collected, one tree after another. -/
theorem ofTrees_of_subset (o : s.Owned) {roots : List RootId} (h : ∀ q ∈ roots, q ∈ s.treeIds) :
    ofTrees s roots =
      .ok (⟨Roll.ofItems (roots.flatMap (items s))⟩, roots.flatMap (unresolvedOf s)) := by
  rw [ofTrees]
  refine foldlM_collect (fun q hq c findings => ?_) {} []
  obtain ⟨tree, htree⟩ := exists_tree_of_mem_treeIds (h q hq)
  simp only [collect_eq o htree]
  rfl

/-- The identities of all trees are collected. -/
theorem ofTrees_eq (o : s.Owned) : ofTrees s s.treeIds =
    .ok (⟨collected s⟩, s.treeIds.flatMap (unresolvedOf s)) :=
  ofTrees_of_subset o fun _ hq => hq

variable {f : Renaming} {a b : Store}

/-- The same outcome under the new number of its statement. -/
def renameOutcome (f : Renaming) : Except Finding BaseUse → Except Finding BaseUse
  | .ok use => .ok (use.rename f)
  | .error g => .error (g.rename f)

/-- Resolved bases may be picked before or after renaming. -/
theorem resolved_map (outcomes : List (Except Finding BaseUse)) :
    resolved (outcomes.map (renameOutcome f)) =
      (resolved outcomes).map (BaseUse.rename f) := by
  rw [resolved, resolved, List.filterMap_map, List.map_filterMap]
  refine List.filterMap_congr fun outcome _ => ?_
  rcases outcome with g | use <;> rfl

/-- Findings about bases may be picked before or after renaming. -/
theorem unresolved_map (outcomes : List (Except Finding BaseUse)) :
    unresolved (outcomes.map (renameOutcome f)) =
      (unresolved outcomes).map (Finding.rename f) := by
  rw [unresolved, unresolved, List.filterMap_map, List.map_filterMap]
  refine List.filterMap_congr fun outcome _ => ?_
  rcases outcome with g | use <;> rfl

/-- A `base` of a renamed statement refers to the same. -/
theorem resolveBase_renamed {n m : Node} (hnm : n.Renamed f m) (module : String) (x : NodeId) :
    resolveBase module (f.node x) m = renameOutcome f (resolveBase module x n) := by
  rw [resolveBase, resolveBase, hnm.argument, hnm.element]
  rcases Text.splitAtFirst ':' n.argument with _ | ⟨qualifier, localName⟩
  · rfl
  dsimp only
  rcases n.element.scope.module? qualifier with _ | owner
  · rw [unboundBaseQualifier, unboundBaseQualifier, Node.subject, Node.subject, hnm.element,
      hnm.argument]
    rfl
  · rfl

/-- What the bases of an identity refer to does not depend on numbers. -/
theorem basesOf_renamed (h : a.Renamed f b) (module : String) (x : NodeId) :
    basesOf b module (f.node x) = (basesOf a module x).map (renameOutcome f) := by
  rw [basesOf, basesOf, h.childrenOfKeyword, List.filterMap_map, List.map_filterMap]
  refine List.filterMap_congr fun c _ => ?_
  rw [Function.comp_apply]
  rcases hn : a.get? c with _ | n
  · rw [h.get?_eq_none hn]
    rfl
  · obtain ⟨m, hm, hnm⟩ := h.exists_get? hn
    rw [hm]
    exact congrArg some (resolveBase_renamed hnm module c)

/-- The identities of a tree under new numbers. -/
theorem items_renamed (h : a.Renamed f b) (o : a.Owned) (hroot : root ∈ a.treeIds) :
    items b (f.tree root) = (items a root).map (Prod.map id (IdentityEntry.rename f)) := by
  rw [items, items, h.uriOf o hroot, List.map_map]
  refine h.map_definitions (fun x n m hnm => ?_) _ _
  rw [Function.comp_apply, Prod.map_apply, Renamed.definedKey hnm, entryOf, entryOf,
    IdentityEntry.rename, hnm.element, hnm.argument, basesOf_renamed h, resolved_map]
  rfl

/-- Both stores have the same identities, in some order. -/
theorem perm_collected (h : a.Renamed f b) (o : a.Owned) (hapart : a.Apart .identity) :
    (collected b).entries.Perm
      ((collected a).entries.map (Prod.map id (IdentityEntry.rename f))) := by
  refine Roll.perm_ofItems h.perm_treeIds (fun _ hq => items_renamed h o hq) ?_
  refine (Renamed.nodup_treeIds a).imp fun {q r} hne e he e' he' => ?_
  obtain ⟨d, hd, rfl⟩ := List.mem_map.mp he
  obtain ⟨d', hd', rfl⟩ := List.mem_map.mp he'
  exact hapart q r hne d hd d' hd'

/-- An identity is collected under its own key. -/
theorem key_of_mem_collected {e : Key × IdentityEntry} (he : e ∈ (collected s).entries) :
    e.2.identity.key = e.1 := by
  obtain ⟨root, -, hroot⟩ := List.mem_flatMap.mp (Roll.mem_of_mem_ofItems he)
  obtain ⟨d, -, rfl⟩ := List.mem_map.mp hroot
  rfl

/-- Both stores give the same findings about bases, in some order. -/
theorem perm_unresolved (h : a.Renamed f b) :
    (b.treeIds.flatMap (unresolvedOf b)).Perm
      ((a.treeIds.flatMap (unresolvedOf a)).map (Finding.rename f)) := by
  refine (h.perm_treeIds.symm.flatMap_right _).trans (List.Perm.of_eq ?_)
  rw [List.flatMap_map, List.map_flatMap]
  refine List.flatMap_congr fun q _ => ?_
  rw [unresolvedOf, unresolvedOf, List.map_flatMap, List.flatMap_def, List.flatMap_def]
  refine congrArg List.flatten (h.map_definitions (fun x n m hnm => ?_) _ _)
  rw [hnm.element, basesOf_renamed h, unresolved_map]

end IdentityCollection
end StatementForest
