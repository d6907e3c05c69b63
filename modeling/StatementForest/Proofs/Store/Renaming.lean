import Mathlib.Data.Option.Basic
import Mathlib.Logic.Equiv.Defs
import StatementForest.Proofs.Build.ViewedElements

/-!
# Renaming statements and trees

The numbers of statements and trees depend on the order in which they were made, and
mean nothing else.  Two stores are the same up to a renaming when each statement of the
one, with all its links, is found under its new number in the other.  The findings kept
with statements and the order in which a tree lists its submodules are left aside.

Main results:

- Theorem `Store.Renamed.trans`, `Store.Renamed.symm`: renamings can be put together and
  taken back.
- Theorem `Store.Renamed.childrenOfKeyword`, `Store.Renamed.namespaceOf`: what is read
  from the one store is read from the other.
- Theorem `Store.Renamed.perm_treeIds`: both have the same trees, in some order.
-/

namespace StatementForest

/-- New numbers for statements and trees. -/
structure Renaming where
  node : Equiv.Perm NodeId
  tree : Equiv.Perm RootId

namespace Renaming

/-- Every number is kept. -/
def refl : Renaming := ⟨Equiv.refl _, Equiv.refl _⟩

/-- The old numbers again. -/
def symm (f : Renaming) : Renaming := ⟨f.node.symm, f.tree.symm⟩

/-- One renaming after another. -/
def trans (f g : Renaming) : Renaming := ⟨f.node.trans g.node, f.tree.trans g.tree⟩

end Renaming

/-! ## Renamed statements, trees and findings -/

/-- A statement without its findings. -/
def Node.bare (n : Node) : Node := { n with findings := [] }

/-- A statement with new numbers in its links, without its findings. -/
def Node.rename (f : Renaming) (n : Node) : Node :=
  { n with
    parent := n.parent.map f.node
    root := f.tree n.root
    children := n.children.map f.node
    findings := [] }

/-- A tree without the list of its submodules. -/
def Tree.lone (t : Tree) : Tree := { t with submodules := [] }

/-- A tree with new numbers for its top and its owner, without the list of its
submodules. -/
def Tree.rename (f : Renaming) (t : Tree) : Tree :=
  { t with top := t.top.map f.node, owner := t.owner.map f.tree, submodules := [] }

/-- The same subject under the new number of its statement. -/
def Subject.rename (f : Renaming) : Subject → Subject
  | .statement node origin => .statement (f.node node) origin
  | subject => subject

/-- The same finding under the new number of its statement. -/
def Finding.rename (f : Renaming) (g : Finding) : Finding :=
  { g with subject := g.subject.rename f }

variable {f g : Renaming}

/-- Keeping every number takes the findings away and nothing else. -/
@[simp]
theorem Node.rename_refl (n : Node) : n.rename .refl = n.bare := by
  simp [rename, bare, Renaming.refl]

/-- Renaming one way and then another is renaming at once. -/
@[simp]
theorem Node.rename_trans (f g : Renaming) (n : Node) :
    n.rename (f.trans g) = (n.rename f).rename g := by
  simp [rename, Renaming.trans, Function.comp_def]

/-- Renaming a statement and then back leaves it without its findings. -/
@[simp]
theorem Node.rename_symm_rename (f : Renaming) (n : Node) :
    (n.rename f).rename f.symm = n.bare := by
  simp [rename, bare, Renaming.symm, Function.comp_def]

/-- The findings of a statement do not matter when it is renamed. -/
@[simp]
theorem Node.rename_bare (f : Renaming) (n : Node) : n.bare.rename f = n.rename f := rfl

/-- Renaming a tree one way and then another is renaming it at once. -/
@[simp]
theorem Tree.rename_trans (f g : Renaming) (t : Tree) :
    t.rename (f.trans g) = (t.rename f).rename g := by
  simp [rename, Renaming.trans, Function.comp_def]

/-- Renaming a tree and then back leaves it without the list of its submodules. -/
@[simp]
theorem Tree.rename_symm_rename (f : Renaming) (t : Tree) :
    (t.rename f).rename f.symm = t.lone := by
  simp [rename, lone, Renaming.symm, Function.comp_def]

/-- The list of its submodules does not matter when a tree is renamed. -/
@[simp]
theorem Tree.rename_lone (f : Renaming) (t : Tree) : t.lone.rename f = t.rename f := rfl

/-- Keeping every number keeps a finding. -/
@[simp]
theorem Finding.rename_refl (g : Finding) : g.rename .refl = g := by
  obtain ⟨subject, kind, message⟩ := g
  cases subject <;> rfl

/-- Renaming a finding one way and then another is renaming it at once. -/
@[simp]
theorem Finding.rename_trans (f f' : Renaming) (g : Finding) :
    g.rename (f.trans f') = (g.rename f).rename f' := by
  obtain ⟨subject, kind, message⟩ := g
  cases subject <;> rfl

/-- Renaming a finding and then back leaves it as it was. -/
@[simp]
theorem Finding.rename_symm_rename (f : Renaming) (g : Finding) :
    (g.rename f).rename f.symm = g := by
  obtain ⟨subject, kind, message⟩ := g
  cases subject <;> simp [rename, Subject.rename, Renaming.symm]

/-- Different findings stay different when they are renamed. -/
theorem Finding.rename_injective (f : Renaming) : Function.Injective (Finding.rename f) :=
  Function.LeftInverse.injective (g := Finding.rename f.symm) fun g => g.rename_symm_rename f

/-- A finding keeps its kind when it is renamed. -/
@[simp]
theorem Finding.kind_rename (f : Renaming) (g : Finding) : (g.rename f).kind = g.kind := rfl

/-! ### Statements under new numbers -/

/-- The second statement is the first one with new numbers. -/
def Node.Renamed (f : Renaming) (n m : Node) : Prop := m.bare = n.rename f

namespace Node.Renamed

variable {n m : Node}

theorem bare_eq (h : n.Renamed f m) : m.bare = n.rename f := h

theorem element (h : n.Renamed f m) : m.element = n.element :=
  (congrArg Node.element h.bare_eq :)

theorem variant (h : n.Renamed f m) : m.variant = n.variant :=
  (congrArg Node.variant h.bare_eq :)

theorem children (h : n.Renamed f m) : m.children = n.children.map f.node :=
  congrArg Node.children h.bare_eq

theorem parent (h : n.Renamed f m) : m.parent = n.parent.map f.node :=
  congrArg Node.parent h.bare_eq

theorem isKeyword (h : n.Renamed f m) (k : Keyword) : m.isKeyword k = n.isKeyword k := by
  rw [Node.isKeyword, Node.isKeyword, Node.keyword?, Node.keyword?, h.variant]

theorem argument (h : n.Renamed f m) : m.argument = n.argument := by
  rw [Node.argument, Node.argument, h.element]

/-- Statements that are the same up to their numbers stay so when both are given the same
attributes. -/
theorem congr (h : n.Renamed f m) {w : Node → Node} (hbare : ∀ n, (w n).bare = w n.bare)
    (hrename : ∀ n, (w n).rename f = w (n.rename f)) : (w n).Renamed f (w m) := by
  rw [Renamed, hbare, hrename, h.bare_eq]

end Node.Renamed

/-! ## Renamed stores -/

namespace Store

/-- The second store is the first one with new numbers. -/
structure Renamed (f : Renaming) (a b : Store) : Prop where
  size : b.slots.size = a.slots.size
  size_trees : b.trees.size = a.trees.size
  get? : ∀ x, (b.get? (f.node x)).map Node.bare = (a.get? x).map (Node.rename f)
  tree? : ∀ r, (b.tree? (f.tree r)).map Tree.lone = (a.tree? r).map (Tree.rename f)

namespace Renamed

variable {a b c : Store} {x y : NodeId} {r : RootId}

theorem refl (a : Store) : Renamed .refl a a where
  size := rfl
  size_trees := rfl
  get? x := by
    refine congrArg (Option.map · (a.get? x)) (funext fun n => ?_)
    rw [Node.rename_refl]
  tree? r := by
    refine congrArg (Option.map · (a.tree? r)) (funext fun t => ?_)
    simp [Tree.rename, Tree.lone, Renaming.refl]

theorem trans (h : Renamed f a b) (h' : Renamed g b c) : Renamed (f.trans g) a c where
  size := h'.size.trans h.size
  size_trees := h'.size_trees.trans h.size_trees
  get? x := by
    have hx := congrArg (Option.map (Node.rename g)) (h.get? x)
    rw [Option.map_map, Option.map_map] at hx
    have hsplit : Node.rename (f.trans g) = Node.rename g ∘ Node.rename f :=
      funext fun n => n.rename_trans f g
    rw [hsplit]
    exact (h'.get? (f.node x)).trans hx
  tree? r := by
    have hr := congrArg (Option.map (Tree.rename g)) (h.tree? r)
    rw [Option.map_map, Option.map_map] at hr
    have hsplit : Tree.rename (f.trans g) = Tree.rename g ∘ Tree.rename f :=
      funext fun t => t.rename_trans f g
    rw [hsplit]
    exact (h'.tree? (f.tree r)).trans hr

theorem symm (h : Renamed f a b) : Renamed f.symm b a where
  size := h.size.symm
  size_trees := h.size_trees.symm
  get? x := by
    have hx := congrArg (Option.map (Node.rename f.symm)) (h.get? (f.node.symm x))
    rw [Option.map_map, Option.map_map, Equiv.apply_symm_apply] at hx
    have hback : Node.rename f.symm ∘ Node.rename f = Node.bare :=
      funext fun n => n.rename_symm_rename f
    rw [hback] at hx
    exact hx.symm
  tree? r := by
    have hr := congrArg (Option.map (Tree.rename f.symm)) (h.tree? (f.tree.symm r))
    rw [Option.map_map, Option.map_map, Equiv.apply_symm_apply] at hr
    have hback : Tree.rename f.symm ∘ Tree.rename f = Tree.lone :=
      funext fun t => t.rename_symm_rename f
    rw [hback] at hr
    exact hr.symm

/-! ### Statements -/

/-- A live statement has a counterpart. -/
theorem exists_get? (h : Renamed f a b) {n : Node} (hn : a.get? x = some n) :
    ∃ m, b.get? (f.node x) = some m ∧ n.Renamed f m := by
  have hx := h.get? x
  rw [hn, Option.map_some, Option.map_eq_some_iff] at hx
  exact hx

/-- A number without a statement has none under its new number either. -/
theorem get?_eq_none (h : Renamed f a b) (hx : a.get? x = none) : b.get? (f.node x) = none := by
  have heq := h.get? x
  rwa [hx, Option.map_none, Option.map_eq_none_iff] at heq

/-- What does not depend on numbers is found out about both statements. -/
theorem map_get? (h : Renamed f a b) {β : Type} {w : Node → β}
    (hw : ∀ n m, n.Renamed f m → w m = w n) (x : NodeId) :
    (b.get? (f.node x)).map w = (a.get? x).map w := by
  rcases hx : a.get? x with _ | n
  · rw [h.get?_eq_none hx, Option.map_none]
  · obtain ⟨m, hm, hnm⟩ := h.exists_get? hx
    rw [hm, Option.map_some, Option.map_some, hw n m hnm]

/-- A test that looks at no numbers comes out the same for a renamed statement. -/
theorem any_get? (h : Renamed f a b) {p : Node → Bool}
    (hp : ∀ n m, n.Renamed f m → p m = p n) (x : NodeId) :
    (b.get? (f.node x)).any p = (a.get? x).any p := by
  have hx := congrArg (Option.any id) (h.map_get? hp x)
  rwa [Option.any_map, Option.any_map] at hx

/-- What is read off a statement without its numbers is the same for a renamed one. -/
theorem bind_get? (h : Renamed f a b) {β : Type} {w : Node → Option β}
    (hw : ∀ n m, n.Renamed f m → w m = w n) (x : NodeId) :
    (b.get? (f.node x)).bind w = (a.get? x).bind w := by
  rcases hx : a.get? x with _ | n
  · rw [h.get?_eq_none hx, Option.bind_none]
  · obtain ⟨m, hm, hnm⟩ := h.exists_get? hx
    rw [hm, Option.bind_some, Option.bind_some, hw n m hnm]

/-- A new number is live when the old one is. -/
theorem contains (h : Renamed f a b) (x : NodeId) : b.contains (f.node x) = a.contains x := by
  have hx := congrArg Option.isSome (h.get? x)
  rwa [Option.isSome_map, Option.isSome_map] at hx

/-- The children under a new number are those under the old one, renamed. -/
theorem childrenOf (h : Renamed f a b) (x : NodeId) :
    b.childrenOf (f.node x) = (a.childrenOf x).map f.node := by
  rcases hx : a.get? x with _ | n
  · rw [Store.childrenOf, Store.childrenOf, hx, h.get?_eq_none hx]
    rfl
  · obtain ⟨m, hm, hnm⟩ := h.exists_get? hx
    rw [childrenOf_of_get? hm, childrenOf_of_get? hx, hnm.children]

/-- The parent under a new number is the one under the old number, renamed. -/
theorem parentOf (h : Renamed f a b) (x : NodeId) :
    b.parentOf (f.node x) = (a.parentOf x).map f.node := by
  rcases hx : a.get? x with _ | n
  · rw [Store.parentOf, Store.parentOf, hx, h.get?_eq_none hx]
    rfl
  · obtain ⟨m, hm, hnm⟩ := h.exists_get? hx
    rw [parentOf_of_get? hm, parentOf_of_get? hx, hnm.parent]

/-- A selection among children by a test that looks at no numbers is the same, renamed. -/
theorem childrenWhere (h : Renamed f a b) {p : Node → Bool}
    (hp : ∀ n m, n.Renamed f m → p m = p n) (x : NodeId) :
    b.childrenWhere (f.node x) p = (a.childrenWhere x p).map f.node := by
  rw [Store.childrenWhere, Store.childrenWhere, h.childrenOf, List.filter_map]
  exact congrArg (List.map f.node)
    (List.filter_congr fun c _ => h.any_get? hp c)

/-- The children of a keyword are the same, renamed. -/
theorem childrenOfKeyword (h : Renamed f a b) (x : NodeId) (k : Keyword) :
    b.childrenOfKeyword (f.node x) k = (a.childrenOfKeyword x k).map f.node :=
  h.childrenWhere (fun _ _ hnm => hnm.isKeyword k) x

/-- What does not depend on numbers is found out about the first child of a keyword. -/
theorem map_firstNodeOfKeyword (h : Renamed f a b) {β : Type} {w : Node → β}
    (hw : ∀ n m, n.Renamed f m → w m = w n) (x : NodeId) (k : Keyword) :
    (b.firstNodeOfKeyword (f.node x) k).map w = (a.firstNodeOfKeyword x k).map w := by
  rw [firstNodeOfKeyword, firstNodeOfKeyword, firstOfKeyword, firstOfKeyword,
    h.childrenOfKeyword, List.head?_map]
  rcases (a.childrenOfKeyword x k).head? with _ | c
  · rfl
  · exact h.map_get? hw c

/-- What stands below a statement stands below it under the new numbers. -/
theorem below (h : Renamed f a b) (hxy : a.Below x y) : b.Below (f.node x) (f.node y) := by
  induction hxy with
  | self => exact .self
  | @under y p hp _ ih =>
    refine .under ?_ ih
    rw [h.parentOf, hp]
    rfl

/-- Under new numbers the same statements stand below each other. -/
theorem below_iff (h : Renamed f a b) : b.Below (f.node x) (f.node y) ↔ a.Below x y := by
  refine ⟨fun hxy => ?_, h.below⟩
  have hback := h.symm.below hxy
  simpa [Renaming.symm] using hback

/-! ### Trees -/

/-- A tree is found under its new number, renamed. -/
theorem exists_tree? (h : Renamed f a b) {t : Tree} (ht : a.tree? r = some t) :
    ∃ t', b.tree? (f.tree r) = some t' ∧ t'.lone = t.rename f := by
  have hr := h.tree? r
  rwa [ht, Option.map_some, Option.map_eq_some_iff] at hr

/-- The top of a tree is found under its new number, renamed. -/
theorem topOf (h : Renamed f a b) (r : RootId) :
    b.topOf (f.tree r) = (a.topOf r).map f.node := by
  have hr := congrArg (Option.map Tree.top) (h.tree? r)
  rw [Option.map_map, Option.map_map] at hr
  rw [topOf_eq, topOf_eq, ← Option.join_map_eq_map_join, Option.map_map]
  exact congrArg Option.join hr

/-- The owner of a tree is found under its new number, renamed. -/
theorem ownerOf (h : Renamed f a b) (r : RootId) :
    b.ownerOf (f.tree r) = (a.ownerOf r).map f.tree := by
  have hr := congrArg (Option.map Tree.owner) (h.tree? r)
  rw [Option.map_map, Option.map_map] at hr
  rw [ownerOf_eq, ownerOf_eq, ← Option.join_map_eq_map_join, Option.map_map]
  exact congrArg Option.join hr

/-- The trees are listed by their numbers. -/
theorem mem_treeIds_iff {s : Store} : r ∈ s.treeIds ↔ (s.tree? r).isSome = true := by
  constructor
  · intro hr
    obtain ⟨i, hi, rfl⟩ := List.mem_map.mp hr
    rw [Store.tree?, Array.getElem?_eq_getElem (List.mem_range.mp hi)]
    rfl
  · intro hr
    obtain ⟨t, ht⟩ := Option.isSome_iff_exists.mp hr
    exact List.mem_map.mpr ⟨r.index, List.mem_range.mpr (lt_size_of_tree? ht), rfl⟩

/-- No tree is listed twice. -/
theorem nodup_treeIds (s : Store) : s.treeIds.Nodup :=
  List.nodup_range.map fun _ _ hij => RootId.mk.inj hij

/-- Both stores have the same trees, in some order. -/
theorem perm_treeIds (h : Renamed f a b) : (a.treeIds.map f.tree).Perm b.treeIds := by
  refine (List.perm_ext_iff_of_nodup ((nodup_treeIds a).map f.tree.injective)
    (nodup_treeIds b)).mpr fun r => ?_
  have hr := congrArg Option.isSome (h.tree? (f.tree.symm r))
  rw [Option.isSome_map, Option.isSome_map, Equiv.apply_symm_apply] at hr
  rw [mem_treeIds_iff, hr, ← mem_treeIds_iff, List.mem_map]
  constructor
  · rintro ⟨q, hq, rfl⟩
    rwa [Equiv.symm_apply_apply]
  · exact fun hq => ⟨_, hq, f.tree.apply_symm_apply r⟩

/-- The tree that owns a tree is found under its new number, renamed. -/
theorem owningTree (h : Renamed f a b) {owner : Option RootId}
    (howner : a.owningTree r = .ok owner) :
    b.owningTree (f.tree r) = .ok (owner.map f.tree) := by
  rw [Store.owningTree, tree] at howner ⊢
  rcases ht : a.tree? r with _ | t
  · rw [ht] at howner
    cases howner
  obtain ⟨t', ht', heq⟩ := h.exists_tree? ht
  have htop : t'.top = t.top.map f.node := congrArg Tree.top heq
  have howns : t'.owner = t.owner.map f.tree := congrArg Tree.owner heq
  rw [ht] at howner
  rw [ht']
  simp only [bind, Except.bind] at howner ⊢
  rcases htopt : t.top with _ | top
  · rw [htopt] at howner htop
    simp only [htop] at howner ⊢
    cases howner
    rfl
  rw [htopt] at howner htop
  simp only [htop, Option.map_some] at howner ⊢
  rcases hn : a.get? top with _ | n
  · simp only [node, hn] at howner
    cases howner
  obtain ⟨m, hm, hnm⟩ := h.exists_get? hn
  simp only [node_of_get? hn] at howner
  simp only [node_of_get? hm, hnm.isKeyword]
  split at howner
  · next hsub =>
    rw [if_pos hsub, howns]
    cases howner
    rfl
  · next hsub =>
    rw [if_neg hsub]
    cases howner
    rfl

/-- The statements of a tree have the same namespace in both stores. -/
theorem namespaceOf (h : Renamed f a b) {uri : Option String} (huri : a.namespaceOf r = .ok uri) :
    b.namespaceOf (f.tree r) = .ok uri := by
  rw [Store.namespaceOf] at huri ⊢
  rcases howner : a.owningTree r with e | owner
  · rw [howner] at huri
    cases huri
  rw [howner] at huri
  rw [h.owningTree howner]
  rcases owner with _ | owner
  · exact huri
  simp only [Option.map_some, bind, Except.bind, tree] at huri ⊢
  rcases ht : a.tree? owner with _ | t
  · rw [ht] at huri
    cases huri
  obtain ⟨t', ht', heq⟩ := h.exists_tree? ht
  have htop : t'.top = t.top.map f.node := congrArg Tree.top heq
  rw [ht] at huri
  rw [ht']
  rcases htopt : t.top with _ | top
  · simp only [htopt] at huri
    simp only [htop, htopt]
    exact huri
  simp only [htopt] at huri
  simp only [htop, htopt, Option.map_some]
  rcases hn : a.get? top with _ | n
  · simp only [node, hn] at huri
    cases huri
  obtain ⟨m, hm, -⟩ := h.exists_get? hn
  simp only [node_of_get? hn] at huri
  simp only [node_of_get? hm]
  rw [← huri]
  exact congrArg Except.ok (h.map_firstNodeOfKeyword (fun _ _ hnm => hnm.argument) top _)

end Renamed
end Store
end StatementForest
