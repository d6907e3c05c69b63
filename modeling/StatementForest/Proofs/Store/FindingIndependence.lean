import StatementForest.Proofs.Store.Outcome
import StatementForest.Schema.Basic

/-!
# Operations that look at no finding

Findings are kept with the statements they are about, but no operation of the store
decides anything by them.  When other findings are kept with the statements, an
operation has the same result and makes the same changes.

Main results:

- Theorem `IgnoresFindings.bind`, `IgnoresFindings.look`: steps that look at no finding can be put
  together.
- Theorem `IgnoresFindings.instantiate`, `IgnoresFindings.numberChildren`,
  `IgnoresFindings.sideChildren`: so can the operations that build.
- Theorem `IgnoresFindings.applyAttributes`, `IgnoresFindings.pruneTrees`: and those on whole trees.
-/

namespace StatementForest

/-! ## Other findings -/

/-- The same statement with other findings. -/
def Node.mapFindings (g : List Finding → List Finding) (n : Node) : Node :=
  { n with findings := g n.findings }

/-- The same store with other findings kept with its statements. -/
def Store.mapFindings (g : List Finding → List Finding) (s : Store) : Store :=
  { s with slots := s.slots.map (·.map (Node.mapFindings g)) }

namespace Store

variable {g : List Finding → List Finding} {s : Store} {id : NodeId}

/-- Every statement is found where it was, with other findings. -/
@[simp]
theorem get?_mapFindings (g : List Finding → List Finding) (s : Store) (id : NodeId) :
    (s.mapFindings g).get? id = (s.get? id).map (Node.mapFindings g) := by
  simp only [get?, mapFindings, Array.getElem?_map]
  rcases s.slots[id.index]? with _ | _ | n <;> rfl

/-- The slots are as many as before. -/
@[simp]
theorem size_mapFindings : (s.mapFindings g).slots.size = s.slots.size := by
  simp [mapFindings]

/-- The children of a statement do not depend on findings. -/
theorem childrenOf_mapFindings : (s.mapFindings g).childrenOf id = s.childrenOf id := by
  rw [childrenOf, childrenOf, get?_mapFindings]
  rcases s.get? id with _ | n <;> rfl

/-- The parent of a statement does not depend on findings. -/
theorem parentOf_mapFindings : (s.mapFindings g).parentOf id = s.parentOf id := by
  rw [parentOf, parentOf, get?_mapFindings]
  rcases s.get? id with _ | n <;> rfl

/-- A test of statements that looks at no finding. -/
theorem any_get?_mapFindings {p : Node → Bool} (hp : ∀ n, p (n.mapFindings g) = p n) :
    ((s.mapFindings g).get? id).any p = (s.get? id).any p := by
  rw [get?_mapFindings, Option.any_map]
  exact congrArg (Option.any · (s.get? id)) (funext hp)

/-- A selection among children by a test that looks at no finding is the same. -/
theorem childrenWhere_mapFindings {p : Node → Bool} (hp : ∀ n, p (n.mapFindings g) = p n) :
    (s.mapFindings g).childrenWhere id p = s.childrenWhere id p := by
  simp only [childrenWhere, childrenOf_mapFindings, any_get?_mapFindings hp]

/-- The children with a key do not depend on findings. -/
@[simp]
theorem childrenWithKey_mapFindings {key : Key} :
    (s.mapFindings g).childrenWithKey id key = s.childrenWithKey id key :=
  childrenWhere_mapFindings fun _ => rfl

/-- The children of a keyword do not depend on findings. -/
@[simp]
theorem childrenOfKeyword_mapFindings {k : Keyword} :
    (s.mapFindings g).childrenOfKeyword id k = s.childrenOfKeyword id k :=
  childrenWhere_mapFindings fun _ => rfl

/-- The first child of a keyword is the same statement, with other findings. -/
theorem firstNodeOfKeyword_mapFindings {k : Keyword} :
    (s.mapFindings g).firstNodeOfKeyword id k =
      (s.firstNodeOfKeyword id k).map (Node.mapFindings g) := by
  rw [firstNodeOfKeyword, firstNodeOfKeyword, firstOfKeyword, firstOfKeyword,
    childrenOfKeyword_mapFindings]
  rcases (s.childrenOfKeyword id k).head? with _ | c
  · rfl
  · exact get?_mapFindings g s c

/-- What is found out about a statement without a look at its findings. -/
theorem map_get?_mapFindings {β : Type} {f : Node → β} (hf : ∀ n, f (n.mapFindings g) = f n) :
    ((s.mapFindings g).get? id).map f = (s.get? id).map f := by
  rw [get?_mapFindings, Option.map_map]
  exact congrArg (Option.map · (s.get? id)) (funext hf)

/-- What is read off a statement without its findings is the same. -/
theorem bind_get?_mapFindings {β : Type} {f : Node → Option β}
    (hf : ∀ n, f (n.mapFindings g) = f n) :
    ((s.mapFindings g).get? id).bind f = (s.get? id).bind f := by
  rw [get?_mapFindings, Option.bind_map]
  exact congrArg (Option.bind (s.get? id)) (funext hf)

/-! ### Walks -/

/-- The parents of a statement do not depend on findings. -/
theorem chainWithin_mapFindings (steps : Nat) :
    (s.mapFindings g).chainWithin steps id = s.chainWithin steps id := by
  induction steps generalizing id with
  | zero => rfl
  | succ steps ih =>
    rw [chainWithin_succ, chainWithin_succ, parentOf_mapFindings]
    rcases s.parentOf id with _ | p
    · rfl
    · exact congrArg (id :: ·) ih

/-- What stands below a statement does not depend on findings. -/
theorem descendantsWithin_mapFindings (height : Nat) :
    (s.mapFindings g).descendantsWithin height id = s.descendantsWithin height id := by
  induction height generalizing id with
  | zero => rfl
  | succ height ih =>
    have hrec : (s.mapFindings g).descendantsWithin height = s.descendantsWithin height :=
      funext fun _ => ih
    rw [descendantsWithin, descendantsWithin, node, node, get?_mapFindings, hrec]
    rcases s.get? id with _ | n <;> rfl

/-- The descendants of a statement do not depend on findings. -/
theorem descendants_mapFindings : (s.mapFindings g).descendants id = s.descendants id := by
  rw [descendants, descendants, size_mapFindings, descendantsWithin_mapFindings]

/-- Whether a statement may be attached does not depend on findings. -/
theorem checkAttach_mapFindings {child : NodeId} :
    (s.mapFindings g).checkAttach id child = s.checkAttach id child := by
  have hancestor : (s.mapFindings g).isAncestorOrSelf child id = s.isAncestorOrSelf child id := by
    rw [isAncestorOrSelf, isAncestorOrSelf, ancestors, ancestors, size_mapFindings,
      chainWithin_mapFindings]
  have htop : (s.mapFindings g).isTop child = s.isTop child := rfl
  rw [checkAttach, checkAttach, hancestor, htop]
  simp only [node, get?_mapFindings]
  rcases s.get? id with _ | n
  · rfl
  · rcases s.get? child with _ | c <;> rfl

/-- The place of a child among its siblings does not depend on findings. -/
theorem childIndex_mapFindings {child : NodeId} :
    (s.mapFindings g).childIndex id child = s.childIndex id child := by
  rw [childIndex, childIndex, node, node, get?_mapFindings]
  rcases s.get? id with _ | n <;> rfl

/-- Trees hold no findings. -/
@[simp]
theorem tree_mapFindings {r : RootId} : (s.mapFindings g).tree r = s.tree r := rfl

/-- The tree that owns a tree does not depend on findings. -/
theorem owningTree_mapFindings {r : RootId} :
    (s.mapFindings g).owningTree r = s.owningTree r := by
  rw [owningTree, owningTree, tree_mapFindings]
  rcases s.tree r with e | t
  · rfl
  simp only [bind, Except.bind]
  rcases t.top with _ | top
  · rfl
  simp only [node, get?_mapFindings]
  rcases s.get? top with _ | n <;> rfl

/-- The namespace of a tree does not depend on findings. -/
theorem namespaceOf_mapFindings {r : RootId} :
    (s.mapFindings g).namespaceOf r = s.namespaceOf r := by
  rw [namespaceOf, namespaceOf, owningTree_mapFindings]
  rcases s.owningTree r with e | _ | owner
  · rfl
  · rfl
  simp only [bind, Except.bind, tree_mapFindings]
  rcases s.tree owner with e | t
  · rfl
  dsimp only
  rcases t.top with _ | top
  · rfl
  simp only [node, get?_mapFindings, firstNodeOfKeyword_mapFindings, Option.map_map]
  rcases s.get? top with _ | n <;> rfl

/-! ### Changes -/

/-- A change that touches no finding can be made before or after findings are replaced. -/
theorem update_mapFindings {f : Node → Node} (hf : ∀ n, f (n.mapFindings g) = (f n).mapFindings g) :
    (s.mapFindings g).update id f = (s.update id f).mapFindings g := by
  have hslots : ∀ i : Nat, ((s.mapFindings g).update id f).slots[i]? =
      ((s.update id f).mapFindings g).slots[i]? := by
    intro i
    simp only [mapFindings, update, Array.getElem?_modify, Array.getElem?_map]
    split
    · rcases s.slots[i]? with _ | _ | n
      · rfl
      · rfl
      · exact congrArg (fun m => some (some m)) (hf n)
    · rfl
  exact congrArg (Store.mk · s.trees) (Array.ext_getElem? hslots)

/-- A slot can be emptied before or after findings are replaced. -/
theorem free_mapFindings : (s.mapFindings g).free id = (s.free id).mapFindings g := by
  have hslots : ∀ i : Nat, ((s.mapFindings g).free id).slots[i]? =
      ((s.free id).mapFindings g).slots[i]? := by
    intro i
    simp only [mapFindings, free, Array.getElem?_modify, Array.getElem?_map]
    split
    · rcases s.slots[i]? with _ | _ | n <;> rfl
    · rfl
  exact congrArg (Store.mk · s.trees) (Array.ext_getElem? hslots)

/-- A statement without findings gets the same number in both stores. -/
theorem alloc_mapFindings {n : Node} (hn : n.mapFindings g = n) :
    (s.mapFindings g).alloc n = ((s.alloc n).1, (s.alloc n).2.mapFindings g) := by
  simp [alloc, mapFindings, hn]

end Store

/-! ## Operations -/

/-- An operation of the store that does the same, and has the same result, whatever
findings are kept with the statements. -/
def IgnoresFindings {α : Type} (m : StoreM α) : Prop :=
  ∀ g : List Finding → List Finding, g [] = [] → ∀ s : Store,
    m (s.mapFindings g) = ((m s).1, (m s).2.mapFindings g)

namespace IgnoresFindings

open Store

variable {α β : Type}

/-- Returning a value looks at no finding. -/
theorem pure (a : α) : IgnoresFindings (pure a) := fun _ _ _ => rfl

/-- Failing looks at no finding. -/
theorem throw (e : Failure) : IgnoresFindings (throw e : StoreM α) := fun _ _ _ => rfl

/-- Of two steps that look at no finding, one after the other looks at none. -/
theorem bind {m : StoreM α} {f : α → StoreM β} (hm : IgnoresFindings m)
    (hf : ∀ a, IgnoresFindings (f a)) :
    IgnoresFindings (m >>= f) := by
  intro g hg s
  rw [bind_apply, bind_apply, hm g hg s]
  rcases m s with ⟨e | a, t⟩
  · rfl
  · exact hf a g hg t

/-- A choice between steps that look at no finding looks at none. -/
theorem ite {p : Prop} [Decidable p] {m m' : StoreM α} (h : IgnoresFindings m)
    (h' : IgnoresFindings m') :
    IgnoresFindings (if p then m else m') := by
  split
  · exact h
  · exact h'

/-! ### Reading -/

/-- What is done with a statement does not depend on its findings. -/
theorem look {id : NodeId} {f : Node → StoreM β} (hf : ∀ n g, f (n.mapFindings g) = f n)
    (h : ∀ n, IgnoresFindings (f n)) : IgnoresFindings (StoreM.node id >>= f) := by
  intro g hg s
  rw [bind_apply, bind_apply, StoreM.node, query_apply, query_apply, node, node, get?_mapFindings]
  rcases s.get? id with _ | n
  · rfl
  · exact (congrFun (hf n g) _).trans (h n g hg s)

/-- What is done with a store does not depend on the findings in it. -/
theorem get {f : Store → StoreM β} (hf : ∀ s g, f (s.mapFindings g) = f s)
    (h : ∀ s, IgnoresFindings (f s)) : IgnoresFindings (MonadState.get >>= f) := by
  intro g hg s
  rw [bind_apply, bind_apply, get_apply, get_apply]
  exact (congrFun (hf s g) _).trans (h s g hg s)

/-- A query that looks at no finding has the same answer. -/
theorem query {f : Store → Except Failure α} (hf : ∀ s g, f (s.mapFindings g) = f s) :
    IgnoresFindings (StoreM.query f) := by
  intro g _ s
  rw [query_apply, query_apply, hf]

theorem tree (r : RootId) : IgnoresFindings (StoreM.tree r) := query fun _ _ => rfl

theorem childrenOf (id : NodeId) : IgnoresFindings (StoreM.childrenOf id) :=
  look (fun _ _ => rfl) fun _ => pure _

theorem childrenWithKey (id : NodeId) (key : Key) :
    IgnoresFindings (StoreM.childrenWithKey id key) := by
  refine look (fun _ _ => rfl) fun _ => get (fun s g => ?_) fun _ => pure _
  rw [childrenWithKey_mapFindings]

theorem childrenOfKeyword (id : NodeId) (k : Keyword) :
    IgnoresFindings (StoreM.childrenOfKeyword id k) := by
  refine look (fun _ _ => rfl) fun _ => get (fun s g => ?_) fun _ => pure _
  rw [childrenOfKeyword_mapFindings]

/-! ### Changing -/

/-- A change of the store that carries findings along looks at none of them. -/
theorem modify {f : Store → Store} (hf : ∀ s g, f (s.mapFindings g) = (f s).mapFindings g) :
    IgnoresFindings (modify f : StoreM PUnit) := by
  intro g _ s
  rw [modify_apply, modify_apply, hf]

/-- A change of one statement that carries its findings along looks at none of them. -/
theorem update {f : Node → Node} (hf : ∀ n g, f (n.mapFindings g) = (f n).mapFindings g)
    (id : NodeId) : IgnoresFindings (StoreM.update id f) :=
  look (fun _ _ => rfl) fun _ => modify fun _ g => update_mapFindings fun n => hf n g

theorem updateTree (r : RootId) (f : Tree → Tree) : IgnoresFindings (StoreM.updateTree r f) :=
  bind (tree r) fun _ => modify fun _ _ => rfl

/-- Making a statement without findings looks at none. -/
theorem alloc {n : Node} (hn : n.findings = []) :
    IgnoresFindings (modifyGet (Store.alloc · n) : StoreM NodeId) := by
  intro g hg s
  have hsame : n.mapFindings g = n := by rw [Node.mapFindings, hn, hg, ← hn]
  rw [modifyGet_apply, modifyGet_apply, alloc_mapFindings hsame]

/-! ### Loops -/

/-- Steps in a row that look at no finding look at none together. -/
theorem forM {f : α → StoreM PUnit} (items : List α) (h : ∀ a, IgnoresFindings (f a)) :
    IgnoresFindings (items.forM f) := by
  induction items with
  | nil => exact pure _
  | cons a rest ih => exact bind (h a) fun _ => ih

/-- Steps in a row with results look at no finding when none of them does. -/
theorem mapM {f : α → StoreM β} (items : List α) (h : ∀ a, IgnoresFindings (f a)) :
    IgnoresFindings (items.mapM f) := by
  induction items with
  | nil => exact pure _
  | cons a rest ih =>
    rw [List.mapM_cons]
    exact bind (h a) fun _ => bind ih fun _ => pure _

/-- Selecting by a test that looks at no finding looks at none. -/
theorem filterM {test : α → StoreM Bool} (items : List α) (h : ∀ a, IgnoresFindings (test a)) :
    IgnoresFindings (items.filterM test) := by
  have haux : ∀ items acc : List α, IgnoresFindings (List.filterAuxM test items acc) := by
    intro items
    induction items with
    | nil => exact fun acc => pure acc
    | cons a rest ih => exact fun acc => bind (h a) fun _ => ih _
  exact bind (haux items []) fun _ => pure _

/-! ## Moving and making statements -/

/-- A change of a whole subtree that carries findings along looks at none of them. -/
theorem updateBelow {f : Node → Node} (hf : ∀ n g, f (n.mapFindings g) = (f n).mapFindings g)
    (id : NodeId) : IgnoresFindings (StoreM.updateBelow id f) :=
  bind (query fun _ _ => descendants_mapFindings) fun below => forM below fun d => update hf d

theorem removeChild (parent child : NodeId) :
    IgnoresFindings (StoreM.removeChild parent child) := by
  refine bind (query fun _ _ => childIndex_mapFindings) fun index => ?_
  refine bind (update (fun _ _ => rfl) parent) fun _ => ?_
  exact bind (update (fun _ _ => rfl) child) fun _ => pure index

theorem assignRoot (id : NodeId) (root : RootId) : IgnoresFindings (StoreM.assignRoot id root) :=
  look (fun _ _ => rfl) fun _ => ite (pure _) (updateBelow (fun _ _ => rfl) id)

theorem addChild (parent child : NodeId) (index? : Option Nat) :
    IgnoresFindings (StoreM.addChild parent child index?) := by
  refine bind (query fun _ _ => checkAttach_mapFindings) fun _ => ?_
  refine look (fun _ _ => rfl) fun n => ?_
  have hrest : IgnoresFindings (do
      let root := (← StoreM.node parent).root
      StoreM.update parent (·.insertChild child index?)
      StoreM.update child fun n => { n with parent := some parent }
      StoreM.assignRoot child root) := by
    refine look (fun _ _ => rfl) fun p => ?_
    refine bind (update (fun _ _ => rfl) parent) fun _ => ?_
    exact bind (update (fun _ _ => rfl) child) fun _ => assignRoot child p.root
  rcases n.parent with _ | previous
  · exact hrest
  · exact bind (removeChild previous child) fun _ => hrest

theorem instantiate (suppliers : Suppliers) (e : Element) (parent? : Option NodeId)
    (root : RootId) : IgnoresFindings (StoreM.instantiate suppliers e parent? root) := by
  rw [StoreM.instantiate]
  rcases suppliers.resolveElement e with finding | r
  · exact pure _
  refine bind (alloc rfl) fun id => ?_
  rcases parent? with _ | parent
  · exact pure _
  · exact bind (addChild parent id none) fun _ => pure _

theorem discardSubtree (id : NodeId) : IgnoresFindings (StoreM.discardSubtree id) := by
  have hfree : ∀ (ids : List NodeId) (s : Store) (g : List Finding → List Finding),
      ids.foldl Store.free (s.mapFindings g) = (ids.foldl Store.free s).mapFindings g := by
    intro ids
    induction ids with
    | nil => exact fun _ _ => rfl
    | cons d rest ih =>
      intro s g
      rw [List.foldl_cons, List.foldl_cons, free_mapFindings, ih]
  refine look (fun _ _ => rfl) fun n => get (fun _ _ => rfl) fun s => ?_
  refine ite (throw _) (bind (query fun _ _ => descendants_mapFindings) fun below => ?_)
  exact modify fun s g => hfree below s g

/-! ## Building -/

theorem numberChildren (id : NodeId) : IgnoresFindings (StoreM.numberChildren id) := by
  refine bind (childrenOf id) fun children => forM children fun child => ?_
  refine look (fun _ _ => rfl) fun n => ite (get (fun s g => ?_) fun _ => ?_) (pure _)
  · have hposition : (s.mapFindings g).earlierTwins children child n.key =
        s.earlierTwins children child n.key := by
      rw [earlierTwins, earlierTwins]
      congr 1
      exact funext fun c => any_get?_mapFindings fun _ => rfl
    rw [hposition]
  · exact update (fun _ _ => rfl) child

theorem sideChildren (id : NodeId) (side : String) :
    IgnoresFindings (StoreM.sideChildren id side) := by
  refine bind (childrenOf id) fun children => filterM children fun child => ?_
  refine look (fun _ _ => rfl) fun n => ite ?_ (pure _)
  exact bind (childrenWithKey child _) fun _ => pure _

theorem recordVersion (id : NodeId) : IgnoresFindings (StoreM.update id Node.recordVersion) := by
  refine update (fun n g => ?_) id
  have hargument : (n.mapFindings g).argument = n.argument := rfl
  rw [Node.recordVersion, Node.recordVersion, hargument]
  rcases versionNumbers? n.argument with _ | numbers <;> rfl

theorem addTree (source : Option String) (conformance : Conformance) :
    IgnoresFindings (modifyGet (Store.addTree · source conformance) : StoreM RootId) :=
  fun _ _ _ => rfl

theorem setTop (root : RootId) (top : NodeId) : IgnoresFindings (StoreM.setTop root top) :=
  updateTree root _

/-! ## Whole trees -/

theorem linkSubmodule (owner submodule : RootId) :
    IgnoresFindings (StoreM.linkSubmodule owner submodule) := by
  -- both branches end with linking, the first one only after a failure
  refine ite (bind (throw _) fun _ => ?_) ?_
  all_goals
    refine bind (tree owner) fun _ => bind (tree submodule) fun t => ?_
    refine bind (updateTree submodule _) fun _ => ?_
    rcases t.owner with _ | previous
    · exact updateTree owner _
    · exact ite (bind (updateTree previous _) fun _ => updateTree owner _) (updateTree owner _)

/-- Whether a tree includes a submodule does not depend on findings. -/
theorem includes (owner : RootId) (submodule : String) :
    IgnoresFindings (StoreM.includes owner submodule) := by
  refine bind (tree owner) fun t => ?_
  rcases t.top with _ | top
  · exact pure _
  refine bind (childrenOfKeyword top _) fun included => get (fun s g => ?_) fun _ => pure _
  refine congrArg Pure.pure (congrArg included.any (funext fun i => ?_))
  exact any_get?_mapFindings fun _ => rfl

/-- A value is handed down without a look at findings, when the rule looks at none. -/
theorem inherit {rule : Store → NodeId → α → α} {write : α → Node → Node}
    (hrule : ∀ s g id a, rule (s.mapFindings g) id a = rule s id a)
    (hwrite : ∀ a n g, write a (n.mapFindings g) = (write a n).mapFindings g) (inherited : α)
    (id : NodeId) : IgnoresFindings (StoreM.inherit rule write inherited id) := by
  have hwithin : ∀ height inherited id,
      IgnoresFindings (StoreM.inheritWithin rule write height inherited id) := by
    intro height
    induction height with
    | zero => exact fun _ _ => throw _
    | succ height ih =>
      intro inherited id
      rw [StoreM.inheritWithin_succ]
      refine look (fun _ _ => rfl) fun n => get (fun s g => ?_) fun _ => ?_
      · rw [hrule]
      · exact bind (update (hwrite _) id) fun _ => forM n.children fun child => ih _ child
  exact get (fun s g => by rw [size_mapFindings]) fun s => hwithin _ inherited id

/-- Handing down a status looks at no finding. -/
theorem assignStatus (id : NodeId) (inherited : Status) :
    IgnoresFindings (StoreM.assignStatus id inherited) := by
  refine inherit (fun s g id status => ?_) (fun _ _ _ => rfl) inherited id
  rw [statusBelow, statusBelow, declaredStatus, declaredStatus, firstNodeOfKeyword_mapFindings,
    Option.bind_map]
  rfl

/-- Handing down a config looks at no finding. -/
theorem assignConfig (id : NodeId) (inherited : Bool) :
    IgnoresFindings (StoreM.assignConfig id inherited) := by
  refine inherit (fun s g id config => ?_) (fun _ _ _ => rfl) inherited id
  have hforced : ((s.mapFindings g).get? id).bind (·.keyword?) = (s.get? id).bind (·.keyword?) :=
    bind_get?_mapFindings fun _ => rfl
  rw [configBelow, configBelow, declaresConfigFalse, declaresConfigFalse, hforced,
    firstNodeOfKeyword_mapFindings, Option.any_map]
  rfl

theorem applyAttributes : IgnoresFindings StoreM.applyAttributes := by
  refine get (fun s g => rfl) fun s => forM s.treeIds fun r => bind (tree r) fun t => ?_
  rcases t.top with _ | top
  · exact pure _
  refine look (fun _ _ => rfl) fun _ => ?_
  refine bind (query fun _ _ => namespaceOf_mapFindings) fun uri => ?_
  refine bind (updateBelow (fun _ _ => rfl) top) fun _ => ?_
  refine bind (updateBelow (fun _ _ => rfl) top) fun _ => ?_
  exact bind (assignStatus top _) fun _ => assignConfig top true

/-! ### Features -/

/-- The conditions of a statement do not depend on findings. -/
theorem conditionsOf_mapFindings {s : Store} {g : List Finding → List Finding} {id : NodeId} :
    (s.mapFindings g).conditionsOf id = s.conditionsOf id := by
  rw [conditionsOf, conditionsOf, childrenOfKeyword_mapFindings]
  refine congrArg (List.filterMap · _) (funext fun c => ?_)
  exact bind_get?_mapFindings fun _ => rfl

/-- Children with what is found out about them without a look at their findings. -/
theorem filterMap_get?_mapFindings {s : Store} {g : List Finding → List Finding}
    {f : NodeId → Node → β} (hf : ∀ c n, f c (n.mapFindings g) = f c n) (ids : List NodeId) :
    (ids.filterMap fun c => ((s.mapFindings g).get? c).map (f c)) =
      ids.filterMap fun c => (s.get? c).map (f c) :=
  congrArg (List.filterMap · ids) (funext fun c => map_get?_mapFindings (hf c))

/-- The features of a tree do not depend on findings. -/
theorem collectFeatures_mapFindings (s : Store) (g : List Finding → List Finding)
    (known : FeatureRegistry) (r : RootId) :
    known.collect (s.mapFindings g) r = known.collect s r := by
  have hentry : ∀ uri, FeatureRegistry.entryOf (s.mapFindings g) uri =
      FeatureRegistry.entryOf s uri := by
    intro uri
    funext id n
    rw [FeatureRegistry.entryOf, FeatureRegistry.entryOf, conditionsOf_mapFindings]
  rw [FeatureRegistry.collect, FeatureRegistry.collect, tree_mapFindings]
  simp only [namespaceOf_mapFindings, childrenOfKeyword_mapFindings, hentry,
    filterMap_get?_mapFindings (f := FeatureRegistry.entryOf s _) fun _ _ => rfl]

/-- What is judged about a statement does not depend on its findings. -/
theorem judge_mapFindings (r : FeatureRegistry) (s : Store) (g : List Finding → List Finding)
    (id : NodeId) :
    r.judge (s.mapFindings g) id = r.judge s id := by
  have hfindings : FeatureRegistry.conditionFindings (s.mapFindings g) id =
      FeatureRegistry.conditionFindings s id := by
    rw [FeatureRegistry.conditionFindings, FeatureRegistry.conditionFindings,
      childrenOfKeyword_mapFindings]
    refine congrArg (List.flatMap · _) (funext fun c => ?_)
    rw [get?_mapFindings]
    rcases s.get? c with _ | n <;> rfl
  rw [FeatureRegistry.judge, FeatureRegistry.judge, FeatureRegistry.admits,
    FeatureRegistry.admits, conditionsOf_mapFindings, hfindings, node, node, get?_mapFindings]
  rcases s.get? id with _ | n <;> rfl

theorem takeOut (parent child : NodeId) :
    IgnoresFindings (FeatureRegistry.takeOut parent child) := by
  refine look (fun _ _ => rfl) fun n => bind (removeChild parent child) fun _ => ?_
  refine bind (discardSubtree child) fun _ => update (fun m g => ?_) parent
  have hdata : (m.mapFindings g).data = m.data := rfl
  rw [Node.pushData, Node.pushData, hdata]
  split <;> rfl

/-- Pruning below a statement looks at no finding. -/
theorem pruneChildren (r : FeatureRegistry) (parent : NodeId) (children : List NodeId) :
    IgnoresFindings (r.pruneChildren parent children) := by
  induction children with
  | nil => exact pure _
  | cons child rest ih =>
    rw [FeatureRegistry.pruneChildren_cons]
    refine bind ?_ fun verdict => bind ih fun _ => pure _
    refine look (fun _ _ => rfl) fun n => ite (pure _) ?_
    refine bind (childrenOfKeyword child _) fun conditions => ite (pure _) ?_
    refine bind (query fun s g => judge_mapFindings r s g child) fun judged => ite (pure _) ?_
    exact bind (takeOut parent child) fun _ => pure _

/-- Pruning trees looks at no finding. -/
theorem pruneTrees (r : FeatureRegistry) (roots : List RootId) :
    IgnoresFindings (r.pruneTrees roots) := by
  have hwithin : ∀ height id, IgnoresFindings (r.pruneWithin height id) := by
    intro height
    induction height with
    | zero => exact fun _ => throw _
    | succ height ih =>
      intro id
      rw [FeatureRegistry.pruneWithin_succ]
      refine bind (childrenOf id) fun children => bind (pruneChildren r id children) fun _ => ?_
      exact bind (mapM _ ih) fun _ => pure _
  refine bind (mapM roots fun root => bind (tree root) fun t => ?_) fun _ => pure _
  rcases t.top with _ | top
  · exact pure _
  · exact get (fun s g => by rw [size_mapFindings]) fun s => hwithin _ top

/-! ### Identities -/

/-- The identities of a tree do not depend on findings. -/
theorem collectIdentities_mapFindings (s : Store) (g : List Finding → List Finding)
    (known : IdentityCollection) (r : RootId) :
    known.collect (s.mapFindings g) r = known.collect s r := by
  have hbases : IdentityCollection.basesOf (s.mapFindings g) = IdentityCollection.basesOf s := by
    funext module id
    rw [IdentityCollection.basesOf, IdentityCollection.basesOf, childrenOfKeyword_mapFindings]
    exact filterMap_get?_mapFindings (fun _ _ => rfl) _
  have hentry : IdentityCollection.entryOf (s.mapFindings g) =
      IdentityCollection.entryOf s := by
    funext uri id n
    rw [IdentityCollection.entryOf, IdentityCollection.entryOf, hbases]
  have hstatements : ∀ ids : List NodeId,
      (ids.filterMap fun id => ((s.mapFindings g).get? id).map (id, ·)) =
        (ids.filterMap fun id => (s.get? id).map (id, ·)).map
          fun d => (d.1, d.2.mapFindings g) := by
    intro ids
    rw [List.map_filterMap]
    refine congrArg (List.filterMap · ids) (funext fun id => ?_)
    rw [get?_mapFindings]
    rcases s.get? id with _ | n <;> rfl
  rw [IdentityCollection.collect, IdentityCollection.collect, tree_mapFindings]
  simp only [namespaceOf_mapFindings, childrenOfKeyword_mapFindings, hentry, hbases,
    hstatements, List.map_map, List.flatMap_map]
  rfl

/-- The features of all trees do not depend on findings. -/
theorem ofTrees_features (roots : List RootId) :
    IgnoresFindings (StoreM.query (FeatureRegistry.ofTrees · roots)) := by
  refine query fun s g => ?_
  rw [FeatureRegistry.ofTrees, FeatureRegistry.ofTrees]
  simp only [collectFeatures_mapFindings]

/-- The identities of all trees do not depend on findings. -/
theorem ofTrees_identities (roots : List RootId) :
    IgnoresFindings (StoreM.query (IdentityCollection.ofTrees · roots)) := by
  refine query fun s g => ?_
  rw [IdentityCollection.ofTrees, IdentityCollection.ofTrees]
  simp only [collectIdentities_mapFindings]

end IgnoresFindings

/-- The tables of modules do not depend on findings. -/
theorem ModelTables.ofStore_mapFindings (s : Store) (g : List Finding → List Finding) :
    ofStore (s.mapFindings g) = ofStore s := by
  have hadd : add (s.mapFindings g) = add s := by
    funext tables root
    have htop : ((s.mapFindings g).tree? root).bind (fun t => t.top.bind (s.mapFindings g).get?) =
        ((s.tree? root).bind fun t => t.top.bind s.get?).map (Node.mapFindings g) := by
      change (s.tree? root).bind _ = _
      rcases s.tree? root with _ | t
      · rfl
      · rw [Option.bind_some, Option.bind_some]
        rcases t.top with _ | top
        · rfl
        · exact Store.get?_mapFindings g s top
    rw [add, add, htop]
    rcases (s.tree? root).bind fun t => t.top.bind s.get? with _ | top <;> rfl
  rw [ofStore, ofStore, hadd]
  rfl

end StatementForest
