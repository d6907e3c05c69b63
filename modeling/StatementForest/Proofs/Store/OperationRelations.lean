import StatementForest.Proofs.Store.Outcome
import StatementForest.Proofs.Store.Ownership
import StatementForest.Schema.Basic

/-!
# Relations along operations

Operations of the store are put together from few steps: a change of one statement, which keeps
what the statement is and its findings, a new statement without findings, a change of trees, and
an empty slot.  A relation between the store before and after that holds of these steps, and that
can be put together, holds of every operation, whether it succeeds or fails.

Only discarding and pruning empty slots, so every other operation is related by more relations.

Main results:

- Theorem `Composable.bind`, `Composable.forM`: steps are put together, and `Composable.node`,
  `Composable.childrenOf`: reading is one of them.
- Theorem `Stepwise.addChild`, `Stepwise.replaceChildrenWithKey`, `Stepwise.cloneSubtree`,
  `Stepwise.instantiate`: the operations that move and make statements.
- Theorem `Stepwise.applyAttributes`, `Stepwise.linkSubmodule`: the operations on whole trees.
- Theorem `Stepwise.discardSubtree`, `Stepwise.pruneTree`: the operations that empty slots.
-/

namespace StatementForest

/-- A change of a statement that keeps what it is and its findings. -/
structure Node.KeepsSelf (f : Node → Node) : Prop where
  face : ∀ n, (f n).face = n.face
  findings : ∀ n, (f n).findings = n.findings

/-- A relation between states that holds between each state and itself, and can be put
together. -/
structure Composable {σ : Type} (R : σ → σ → Prop) : Prop where
  refl : ∀ s, R s s
  trans : ∀ {s t u}, R s t → R t u → R s u

/-- A relation between stores that also holds of the steps that empty no slot. -/
structure Stepwise (R : Store → Store → Prop) : Prop extends Composable R where
  of_update : ∀ s id {f}, Node.KeepsSelf f → R s (s.update id f)
  of_alloc : ∀ s {n}, n.findings = [] → R s (s.alloc n).2
  of_slots_eq : ∀ {s t}, t.slots = s.slots → R s t

/-- An operation relates the state from which it starts to the one that it leaves behind, also
when it fails. -/
def Relates {σ α : Type} (R : σ → σ → Prop) (m : ExceptT Failure (StateM σ) α) : Prop :=
  ∀ s, R s (m s).2

/-- A choice between two steps that relate states relates them. -/
theorem Relates.ite {σ α : Type} {R : σ → σ → Prop} {p : Prop} [Decidable p]
    {m m' : ExceptT Failure (StateM σ) α} (h : Relates R m) (h' : Relates R m') :
    Relates R (if p then m else m') := by
  split
  · exact h
  · exact h'

/-- What an operation relates is known at its end. -/
theorem Relates.yields {σ α : Type} {R : σ → σ → Prop} {m : ExceptT Failure (StateM σ) α}
    (h : Relates R m) (s : σ) : Yields (fun _ t => R s t) m s fun _ t => R s t := by
  have hs := h s
  unfold Yields
  rcases hrun : m s with ⟨e | a, t⟩ <;> rw [hrun] at hs <;> exact hs

/-! ## Steps one after another -/

namespace Composable

variable {σ : Type} {R : σ → σ → Prop} (g : Composable R) {α β : Type}

include g

/-- Returning a value relates a state to itself. -/
theorem pure (a : α) : Relates R (pure a : ExceptT Failure (StateM σ) α) := g.refl

/-- Failing relates a state to itself. -/
theorem throw (e : Failure) : Relates R (throw e : ExceptT Failure (StateM σ) α) := g.refl

/-- Reading the state relates it to itself. -/
theorem get : Relates R (MonadState.get : ExceptT Failure (StateM σ) σ) := g.refl

/-- What follows a step is only looked at for the results that the step has. -/
theorem bind_of {m : ExceptT Failure (StateM σ) α} {f : α → ExceptT Failure (StateM σ) β}
    (hm : Relates R m) (hf : ∀ a s t, m s = (.ok a, t) → R t (f a t).2) : Relates R (m >>= f) := by
  intro s
  have hs := hm s
  rw [bind_apply]
  rcases hrun : m s with ⟨e | a, t⟩ <;> rw [hrun] at hs
  · exact hs
  · exact g.trans hs (hf a s t hrun)

/-- Of two steps that relate states, one after the other relates them. -/
theorem bind {m : ExceptT Failure (StateM σ) α} {f : α → ExceptT Failure (StateM σ) β}
    (hm : Relates R m) (hf : ∀ a, Relates R (f a)) : Relates R (m >>= f) :=
  g.bind_of hm fun a _ t _ => hf a t

/-- Leaving a result aside does not change what a step relates. -/
theorem discard {m : ExceptT Failure (StateM σ) α} (hm : Relates R m) :
    Relates R (Functor.discard m) := by
  rw [discard_eq_bind]
  exact g.bind hm fun _ => g.pure ()

/-- Steps in a row relate states when each of them does. -/
theorem forM {f : α → ExceptT Failure (StateM σ) PUnit} (items : List α)
    (h : ∀ a ∈ items, Relates R (f a)) : Relates R (items.forM f) := by
  induction items with
  | nil => exact g.pure _
  | cons a rest ih =>
    exact g.bind (h a List.mem_cons_self) fun _ => ih fun b hb => h b (List.mem_cons_of_mem _ hb)

/-- Steps in a row with results relate states when each of them does. -/
theorem mapM {f : α → ExceptT Failure (StateM σ) β} (items : List α)
    (h : ∀ a, Relates R (f a)) : Relates R (items.mapM f) := by
  induction items with
  | nil => exact g.pure _
  | cons a rest ih =>
    rw [List.mapM_cons]
    exact g.bind (h a) fun _ => g.bind ih fun _ => g.pure _

/-- Selecting by a test relates states when the test does. -/
theorem filterM {test : α → ExceptT Failure (StateM σ) Bool} (items : List α)
    (h : ∀ a, Relates R (test a)) : Relates R (items.filterM test) := by
  have haux : ∀ items acc : List α, Relates R (List.filterAuxM test items acc) := by
    intro items
    induction items with
    | nil => exact fun acc => g.pure acc
    | cons a rest ih => exact fun acc => g.bind (h a) fun _ => ih _
  exact g.bind (haux items []) fun _ => g.pure _

end Composable

/-! ## Reading -/

/-- Two states that are the same. -/
theorem Composable.eq {σ : Type} : Composable fun s t : σ => t = s where
  refl _ := rfl
  trans h h' := h'.trans h

namespace Composable

variable {R : Store → Store → Prop} (g : Composable R) {α : Type}

include g

theorem query (f : Store → Except Failure α) : Relates R (StoreM.query f) := by
  intro s
  rw [query_apply]
  exact g.refl s

theorem node (id : NodeId) : Relates R (StoreM.node id) := g.query _

theorem tree (r : RootId) : Relates R (StoreM.tree r) := g.query _

theorem childrenOf (id : NodeId) : Relates R (StoreM.childrenOf id) :=
  g.bind (g.node id) fun _ => g.pure _

theorem childrenWithKey (id : NodeId) (key : Key) : Relates R (StoreM.childrenWithKey id key) :=
  g.bind (g.node id) fun _ => g.bind g.get fun _ => g.pure _

theorem childrenOfKeyword (id : NodeId) (k : Keyword) :
    Relates R (StoreM.childrenOfKeyword id k) :=
  g.bind (g.node id) fun _ => g.bind g.get fun _ => g.pure _

theorem sideChildren (id : NodeId) (side : String) : Relates R (StoreM.sideChildren id side) := by
  refine g.bind (g.childrenOf id) fun children => g.filterM children fun child => ?_
  refine g.bind (g.node child) fun n => .ite ?_ (g.pure _)
  exact g.bind (g.childrenWithKey child _) fun _ => g.pure _

end Composable

namespace Stepwise

open Store

variable {R : Store → Store → Prop} (g : Stepwise R) {α : Type}

include g

/-! ### Changing -/

theorem update {f : Node → Node} (hf : Node.KeepsSelf f) (id : NodeId) :
    Relates R (StoreM.update id f) :=
  g.bind (g.node id) fun _ s => g.of_update s id hf

theorem updateTree (r : RootId) (f : Tree → Tree) : Relates R (StoreM.updateTree r f) :=
  g.bind (g.tree r) fun _ _ => g.of_slots_eq rfl

theorem alloc {n : Node} (hnone : n.findings = []) :
    Relates R (modifyGet (Store.alloc · n) : StoreM NodeId) := fun s => g.of_alloc s hnone

/-! ## Moving statements -/

theorem updateBelow {f : Node → Node} (hf : Node.KeepsSelf f) (id : NodeId) :
    Relates R (StoreM.updateBelow id f) :=
  g.bind (g.query _) fun below => g.forM below fun d _ => g.update hf d

theorem removeChild (parent child : NodeId) : Relates R (StoreM.removeChild parent child) := by
  refine g.bind (g.query _) fun index => ?_
  refine g.bind (g.update (by exact ⟨fun _ => rfl, fun _ => rfl⟩) parent) fun _ => ?_
  exact g.bind (g.update (by exact ⟨fun _ => rfl, fun _ => rfl⟩) child) fun _ => g.pure index

theorem assignRoot (id : NodeId) (root : RootId) : Relates R (StoreM.assignRoot id root) :=
  g.bind (g.node id) fun _ =>
    .ite (g.pure _) (g.updateBelow (by exact ⟨fun _ => rfl, fun _ => rfl⟩) id)

theorem addChild (parent child : NodeId) (index? : Option Nat) :
    Relates R (StoreM.addChild parent child index?) := by
  have hrest : Relates R (do
      let root := (← StoreM.node parent).root
      StoreM.update parent (·.insertChild child index?)
      StoreM.update child fun n => { n with parent := some parent }
      StoreM.assignRoot child root) := by
    refine g.bind (g.node parent) fun p => ?_
    refine g.bind (g.update (by exact ⟨fun _ => rfl, fun _ => rfl⟩) parent) fun _ => ?_
    refine g.bind (g.update (by exact ⟨fun _ => rfl, fun _ => rfl⟩) child) fun _ => ?_
    exact g.assignRoot child p.root
  refine g.bind (g.query _) fun _ => g.bind (g.node child) fun n => ?_
  rcases n.parent with _ | previous
  · exact hrest
  · exact g.bind (g.removeChild previous child) fun _ => hrest

theorem replaceChild (parent old new : NodeId) :
    Relates R (StoreM.replaceChild parent old new) := by
  refine .ite (g.pure _) (g.bind (g.query _) fun _ => ?_)
  refine g.bind (g.removeChild parent old) fun _ => g.bind (g.childrenOf parent) fun _ => ?_
  exact g.bind (g.node new) fun _ => g.addChild parent new _

theorem replaceChildrenWithKey (parent : NodeId) (key : Key) (new : List NodeId) :
    Relates R (StoreM.replaceChildrenWithKey parent key new) := by
  refine g.bind (g.forM new fun _ _ => g.query _) fun _ => ?_
  refine g.bind (g.childrenWithKey parent key) fun removed => ?_
  refine g.bind (g.forM removed fun child _ => ?_) fun _ => ?_
  · exact g.bind (g.removeChild parent child) fun _ => g.pure _
  · exact g.bind (g.forM new fun child _ => g.addChild parent child none) fun _ => g.pure _

/-! ## Making statements -/

/-- Copying the levels below a statement relates the stores, by induction on their number. -/
theorem copyWithin (height : Nat) (source parent : NodeId) (root : RootId) :
    Relates R (StoreM.copyWithin height source parent root) := by
  induction height generalizing source parent with
  | zero => exact g.throw _
  | succ height ih =>
    refine g.bind (g.node source) fun n => g.bind (g.alloc rfl) fun id => ?_
    refine g.bind (g.forM n.children fun child _ => ?_) fun _ => g.pure _
    exact g.bind (ih child id) fun _ => g.update (by exact ⟨fun _ => rfl, fun _ => rfl⟩) id

theorem cloneSubtree (source newParent : NodeId) :
    Relates R (StoreM.cloneSubtree source newParent) := by
  refine g.bind (g.node newParent) fun p => g.bind g.get fun s => ?_
  refine g.bind (g.copyWithin _ source newParent p.root) fun _ => ?_
  exact g.bind (g.update (by exact ⟨fun _ => rfl, fun _ => rfl⟩) newParent) fun _ => g.pure _

theorem instantiate (suppliers : Suppliers) (e : Element) (parent? : Option NodeId)
    (root : RootId) : Relates R (StoreM.instantiate suppliers e parent? root) := by
  rw [StoreM.instantiate]
  rcases suppliers.resolveElement e with finding | r
  · exact g.pure _
  refine g.bind (g.alloc rfl) fun id => ?_
  rcases parent? with _ | parent
  · exact g.pure _
  · exact g.bind (g.addChild parent id none) fun _ => g.pure _

/-! ## Building -/

theorem numberChildren (id : NodeId) : Relates R (StoreM.numberChildren id) := by
  refine g.bind (g.childrenOf id) fun children => g.forM children fun child _ => ?_
  refine g.bind (g.node child) fun n => .ite (g.bind g.get fun _ => ?_) (g.pure _)
  exact g.update (by exact ⟨fun _ => rfl, fun _ => rfl⟩) child

theorem recordVersion (id : NodeId) : Relates R (StoreM.update id Node.recordVersion) := by
  have hkeeps : ∀ n : Node,
      n.recordVersion.face = n.face ∧ n.recordVersion.findings = n.findings := by
    intro n
    rw [Node.recordVersion]
    rcases versionNumbers? n.argument with _ | numbers <;> exact ⟨rfl, rfl⟩
  exact g.update ⟨fun n => (hkeeps n).1, fun n => (hkeeps n).2⟩ id

theorem addTree (source : Option String) (conformance : Conformance) :
    Relates R (modifyGet (Store.addTree · source conformance) : StoreM RootId) :=
  fun _ => g.of_slots_eq rfl

theorem setTop (root : RootId) (top : NodeId) : Relates R (StoreM.setTop root top) :=
  g.updateTree root _

/-! ## Whole trees -/

theorem linkSubmodule (owner submodule : RootId) :
    Relates R (StoreM.linkSubmodule owner submodule) := by
  -- both branches end with linking, the first one only after a failure
  refine .ite (g.bind (g.throw _) fun _ => ?_) ?_
  all_goals
    refine g.bind (g.tree owner) fun _ => g.bind (g.tree submodule) fun t => ?_
    refine g.bind (g.updateTree submodule _) fun _ => ?_
    rcases t.owner with _ | previous
    · exact g.updateTree owner _
    · exact .ite (g.bind (g.updateTree previous _) fun _ => g.updateTree owner _)
        (g.updateTree owner _)

/-- Whether a tree includes a submodule is found without any change. -/
theorem includes (owner : RootId) (submodule : String) :
    Relates R (StoreM.includes owner submodule) := by
  refine g.bind (g.tree owner) fun t => ?_
  rcases t.top with _ | top
  · exact g.pure _
  · exact g.bind (g.childrenOfKeyword top _) fun _ => g.bind g.get fun _ => g.pure _

/-- Handing a value down relates the stores, by induction on the levels below. -/
theorem inherit {rule : Store → NodeId → α → α} {write : α → Node → Node}
    (hwrite : ∀ a, Node.KeepsSelf (write a)) (inherited : α) (id : NodeId) :
    Relates R (StoreM.inherit rule write inherited id) := by
  have hwithin : ∀ height inherited id,
      Relates R (StoreM.inheritWithin rule write height inherited id) := by
    intro height
    induction height with
    | zero => exact fun _ _ => g.throw _
    | succ height ih =>
      intro inherited id
      rw [StoreM.inheritWithin_succ]
      refine g.bind (g.node id) fun n => g.bind g.get fun _ => ?_
      refine g.bind (g.update (hwrite _) id) fun _ => ?_
      exact g.forM n.children fun child _ => ih _ child
  exact g.bind g.get fun _ => hwithin _ inherited id

theorem assignNamespace (id : NodeId) (uri : Option String) :
    Relates R (StoreM.assignNamespace id uri) :=
  g.updateBelow (by exact ⟨fun _ => rfl, fun _ => rfl⟩) id

theorem assignConformance (id : NodeId) (conformance : Conformance) :
    Relates R (StoreM.assignConformance id conformance) :=
  g.updateBelow (by exact ⟨fun _ => rfl, fun _ => rfl⟩) id

theorem assignStatus (id : NodeId) (inherited : Status) :
    Relates R (StoreM.assignStatus id inherited) :=
  g.inherit (by exact fun _ => ⟨fun _ => rfl, fun _ => rfl⟩) inherited id

theorem assignConfig (id : NodeId) (inherited : Bool) :
    Relates R (StoreM.assignConfig id inherited) :=
  g.inherit (by exact fun _ => ⟨fun _ => rfl, fun _ => rfl⟩) inherited id

theorem applyAttributes : Relates R StoreM.applyAttributes := by
  refine g.bind g.get fun s => g.forM s.treeIds fun r _ => g.bind (g.tree r) fun t => ?_
  rcases t.top with _ | top
  · exact g.pure _
  refine g.bind (g.node top) fun _ => g.bind (g.query _) fun uri => ?_
  refine g.bind (g.assignNamespace top uri) fun _ => ?_
  refine g.bind (g.assignConformance top t.conformance) fun _ => ?_
  exact g.bind (g.assignStatus top .current) fun _ => g.assignConfig top true

/-! ## Empty slots -/

section Free

variable (hfree : ∀ s id, R s (s.free id))

include hfree

/-- Discarding a subtree relates the stores when emptying a slot does. -/
theorem discardSubtree (id : NodeId) : Relates R (StoreM.discardSubtree id) := by
  have hall : ∀ (ids : List NodeId) (s : Store), R s (ids.foldl Store.free s) := by
    intro ids
    induction ids with
    | nil => exact g.refl
    | cons d rest ih => exact fun s => g.trans (hfree s d) (ih _)
  refine g.bind (g.node id) fun n => g.bind g.get fun s => ?_
  exact .ite (g.throw _) (g.bind (g.query _) fun below s => hall below s)

/-- Taking a child out relates the stores when emptying a slot does. -/
theorem takeOut (parent child : NodeId) : Relates R (FeatureRegistry.takeOut parent child) := by
  refine g.bind (g.node child) fun n => g.bind (g.removeChild parent child) fun _ => ?_
  refine g.bind (g.discardSubtree hfree child) fun _ => ?_
  refine g.update ⟨fun m => ?_, fun m => ?_⟩ parent
  all_goals
    rw [Node.pushData]
    split <;> rfl

/-- Pruning below a statement relates the stores when emptying a slot does. -/
theorem pruneChildren (r : FeatureRegistry) (parent : NodeId) (children : List NodeId) :
    Relates R (r.pruneChildren parent children) := by
  induction children with
  | nil => exact g.pure _
  | cons child rest ih =>
    rw [FeatureRegistry.pruneChildren_cons]
    refine g.bind ?_ fun verdict => g.bind ih fun _ => g.pure _
    refine g.bind (g.node child) fun n => .ite (g.pure _) ?_
    refine g.bind (g.childrenOfKeyword child _) fun conditions => .ite (g.pure _) ?_
    refine g.bind (g.query _) fun judged => .ite (g.pure _) ?_
    exact g.bind (g.takeOut hfree parent child) fun _ => g.pure _

/-- Pruning one tree relates the stores when emptying a slot does. -/
theorem pruneTree (r : FeatureRegistry) (root : RootId) : Relates R (r.pruneTree root) := by
  have hwithin : ∀ height id, Relates R (r.pruneWithin height id) := by
    intro height
    induction height with
    | zero => exact fun _ => g.throw _
    | succ height ih =>
      intro id
      rw [FeatureRegistry.pruneWithin_succ]
      refine g.bind (g.childrenOf id) fun children => ?_
      refine g.bind (g.pruneChildren hfree r id children) fun _ => ?_
      exact g.bind (g.mapM _ ih) fun _ => g.pure _
  refine g.bind (g.tree root) fun t => ?_
  rcases t.top with _ | top
  · exact g.pure _
  · exact g.bind g.get fun s => hwithin _ top

/-- Pruning trees relates the stores when emptying a slot does. -/
theorem pruneTrees (r : FeatureRegistry) (roots : List RootId) :
    Relates R (r.pruneTrees roots) :=
  g.bind (g.mapM roots (g.pruneTree hfree r)) fun _ => g.pure _

end Free

end Stepwise
end StatementForest
