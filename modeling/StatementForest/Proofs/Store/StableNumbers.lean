import StatementForest.Proofs.Feature.PruningResult
import StatementForest.Proofs.Store.ReachableStores
import StatementForest.Proofs.Store.OperationRelations

/-!
# Lasting numbers

A number names one statement for good.  A new statement gets the next slot that was never
used, so no operation makes a number live again, or gives the number of a live statement to
another one.  A slot is emptied only where a subtree is discarded, by itself or by pruning, and
by the invariant nothing that is left mentions it.

Main results:

- Theorem `Store.NamesStable.stepwise`: every operation keeps the names of statements.
- Theorem `Operation.contains_eq_false_iff`: the statements that an operation discards.
- Theorem `Store.OperationRun.namesStable`, `Store.OperationRun.owned`: names are kept along a whole
  run.
- Theorem `Store.Owned.vacant`: nothing mentions an empty slot, and no operation takes it for
  a statement.
- Theorem `Store.OperationRun.lasting_names`: a number is the name of one statement, until that is
  discarded, and of none from then on.
-/

namespace StatementForest

/-! ## One step -/

/-- A number that is in use names the same statement in both stores, unless it names none in
the second one. -/
structure Store.NamesStable (s t : Store) : Prop where
  size_le : s.slots.size ≤ t.slots.size
  faceOf : ∀ x, x.index < s.slots.size → t.contains x = true → t.faceOf x = s.faceOf x

/-- Every statement of the first store is one of the second, and is what it was. -/
def Store.KeepsStatements (s t : Store) : Prop :=
  ∀ x face, s.faceOf x = some face → t.faceOf x = some face

namespace Store

variable {s t u : Store} {x : NodeId}

theorem faceOf_isSome : (s.faceOf x).isSome = s.contains x := by
  rw [faceOf, contains, Option.isSome_map]

theorem contains_of_faceOf {face : Key × Variant × Element} (h : s.faceOf x = some face) :
    s.contains x = true := by
  rw [← faceOf_isSome, h]
  rfl

/-- The slot of a number was used, and has been emptied. -/
structure Freed (s : Store) (x : NodeId) : Prop where
  lt_size : x.index < s.slots.size
  contains : s.contains x = false

namespace NamesStable

theorem refl (s : Store) : NamesStable s s := ⟨Nat.le_refl _, fun _ _ _ => rfl⟩

/-- A number that is in use and names a statement later on named it all the time. -/
theorem contains (h : NamesStable s t) (hx : x.index < s.slots.size) (hlive : t.contains x = true) :
    s.contains x = true := by
  rw [← faceOf_isSome, ← h.faceOf x hx hlive, faceOf_isSome]
  exact hlive

theorem trans (h : NamesStable s t) (h' : NamesStable t u) : NamesStable s u where
  size_le := Nat.le_trans h.size_le h'.size_le
  faceOf x hx hlive := by
    have hx' : x.index < t.slots.size := Nat.lt_of_lt_of_le hx h.size_le
    rw [h'.faceOf x hx' hlive]
    exact h.faceOf x hx (h'.contains hx' hlive)

/-- Stores with the same slots have the same names. -/
theorem of_slots_eq (h : t.slots = s.slots) : NamesStable s t where
  size_le := Nat.le_of_eq (by rw [h])
  faceOf x _ _ := by rw [Store.faceOf, Store.faceOf, get?, get?, h]

/-- A change that keeps what a statement is keeps all names. -/
theorem update {f : Node → Node} (hf : ∀ n, (f n).face = n.face) (id : NodeId) :
    NamesStable s (s.update id f) where
  size_le := Nat.le_of_eq (size_slots_update s id f).symm
  faceOf _ _ _ := faceOf_update hf

/-- A new statement gets a number that was not in use. -/
theorem alloc (n : Node) : NamesStable s (s.alloc n).2 where
  size_le := by simp [Store.alloc]
  faceOf x hx _ := by
    have hne : x ≠ (s.alloc n).1 := fun heq => Nat.lt_irrefl _ (heq ▸ hx)
    rw [Store.faceOf, get?_alloc_of_ne s n hne, ← Store.faceOf]

/-- Emptying a slot keeps all other names. -/
theorem free (id : NodeId) : NamesStable s (s.free id) where
  size_le := by simp [Store.free]
  faceOf x _ hlive := by
    have hne : x ≠ id := by
      rintro rfl
      rw [Store.contains, get?_free_self] at hlive
      cases hlive
    rw [Store.faceOf, get?_free_of_ne s hne, ← Store.faceOf]

/-- The statements of the other store are numbered behind those that were there. -/
theorem absorb (s other : Store) : NamesStable s (s.absorb other) where
  size_le := by simp [Store.absorb]
  faceOf x hx _ := by rw [Store.faceOf, get?_absorb_left hx, ← Store.faceOf]

/-- Every operation keeps the names of statements. -/
theorem stepwise : Stepwise NamesStable where
  refl := refl
  trans := trans
  of_update _ id _ hf := update hf.face id
  of_alloc _ n _ := alloc n
  of_slots_eq := of_slots_eq

/-- An emptied slot stays empty. -/
theorem freed (h : NamesStable s t) (hx : s.Freed x) : t.Freed x where
  lt_size := Nat.lt_of_lt_of_le hx.lt_size h.size_le
  contains := by
    rw [← Bool.not_eq_true]
    intro hlive
    have hdead := hx.contains
    rw [h.contains hx.lt_size hlive] at hdead
    cases hdead

end NamesStable

namespace KeepsStatements

/-- A live number stays live. -/
theorem contains (h : KeepsStatements s t) (hx : s.contains x = true) : t.contains x = true := by
  rw [← faceOf_isSome, Option.isSome_iff_exists] at hx ⊢
  obtain ⟨face, hface⟩ := hx
  exact ⟨face, h x face hface⟩

/-- A change that keeps what a statement is keeps all statements. -/
theorem update {f : Node → Node} (hf : ∀ n, (f n).face = n.face) (id : NodeId) :
    KeepsStatements s (s.update id f) := by
  intro x face hface
  rw [faceOf_update hf]
  exact hface

/-- The statements of the first store keep their numbers. -/
theorem absorb (s other : Store) : KeepsStatements s (s.absorb other) := by
  intro x face hface
  rw [faceOf_absorb_left (lt_size_of_contains (contains_of_faceOf hface))]
  exact hface

/-- Every operation that empties no slot keeps all statements. -/
theorem stepwise : Stepwise KeepsStatements where
  refl _ _ _ hface := hface
  trans h h' x face hface := h' x face (h x face hface)
  of_update _ id _ hf := update hf.face id
  of_alloc s n _ x face hface := by
    have hne := ne_fresh_of_contains (contains_of_faceOf hface)
    rw [faceOf, get?_alloc_of_ne s n hne, ← faceOf]
    exact hface
  of_slots_eq h x face hface := by
    rw [faceOf, get?, h]
    exact hface

end KeepsStatements

end Store

/-! ## Operations -/

namespace Stepwise

variable {R : Store → Store → Prop} (g : Stepwise R)

include g

/-- Making a top for an element relates the stores. -/
theorem plant (suppliers : Suppliers) (e : Element) (root : RootId) :
    Relates R (StoreM.plant suppliers e root) := by
  refine g.bind (g.instantiate suppliers e none root) fun made => ?_
  rcases made with top | finding
  · exact g.setTop root top
  · exact g.pure _

/-- Only discarding empties slots. -/
theorem mutation (m : Mutation)
    (hdiscard : ∀ id, m = .discardSubtree id → Relates R (StoreM.discardSubtree id)) :
    Relates R m.perform := by
  cases m with
  | addChild parent child index? => exact g.addChild parent child index?
  | appendChild parent child => exact g.addChild parent child none
  | removeChild parent child => exact g.discard (g.removeChild parent child)
  | replaceChild parent old new => exact g.replaceChild parent old new
  | replaceChildrenWithKey parent key new =>
    exact g.discard (g.replaceChildrenWithKey parent key new)
  | cloneSubtree source newParent => exact g.discard (g.cloneSubtree source newParent)
  | discardSubtree id => exact hdiscard id rfl
  | linkSubmodule owner submodule => exact g.linkSubmodule owner submodule
  | assignNamespace id uri => exact g.assignNamespace id uri
  | assignConformance id conformance => exact g.assignConformance id conformance
  | assignStatus id inherited => exact g.assignStatus id inherited
  | assignConfig id inherited => exact g.assignConfig id inherited

end Stepwise

/-- An operation on a store, with its arguments.  A store that is taken in satisfies the
invariant, and a change of one statement touches neither its links nor what it is. -/
inductive Operation where
  | addTree (source : Option String) (conformance : Conformance)
  | instantiate (suppliers : Suppliers) (e : Element) (parent? : Option NodeId) (root : RootId)
  | plant (suppliers : Suppliers) (e : Element) (root : RootId)
  | change (m : Mutation)
  | prune (r : FeatureRegistry) (root : RootId)
  | applyAttributes
  | annotate (id : NodeId) (f : Node → Node) (keepsLinks : Node.KeepsLinks f)
  | absorb (other : Store) (owned : other.Owned)

namespace Operation

open Store

variable {s : Store} {x : NodeId}

/-- Carry out an operation. -/
def perform : Operation → StoreM Unit
  | addTree source conformance =>
    discard (modifyGet (Store.addTree · source conformance) : StoreM RootId)
  | instantiate suppliers e parent? root => discard (StoreM.instantiate suppliers e parent? root)
  | plant suppliers e root => StoreM.plant suppliers e root
  | change m => m.perform
  | prune r root => discard (r.pruneTree root)
  | applyAttributes => StoreM.applyAttributes
  | annotate id f _ => StoreM.update id f
  | absorb other _ => modify (·.absorb other)

/-- The statements whose slots an operation empties: the subtree that is discarded, or the
subtrees that pruning takes out of a tree, or else none. -/
def Frees (s : Store) (x : NodeId) : Operation → Prop
  | change (.discardSubtree id) => (StoreM.discardSubtree id s).1 = .ok () ∧ s.Below id x
  | prune r root => r.Removes s (s.topOf root).toList x
  | _ => False

/-! ### The invariant -/

/-- Pruning a tree that there is not changes nothing. -/
theorem pruneTree_of_none (r : FeatureRegistry) {root : RootId} (h : s.tree? root = none) :
    r.pruneTree root s = (.error (.rootNotFound root), s) := by
  rw [FeatureRegistry.pruneTree, bind_apply, StoreM.tree_apply_of_none h]

/-- Every operation keeps the invariant, whether it succeeds or fails. -/
theorem owned (o : s.Owned) (op : Operation) : (op.perform s).2.Owned := by
  cases op with
  | addTree source conformance => exact o.addTree source conformance
  | instantiate suppliers e parent? root =>
    exact (StoreM.instantiate_outcome o suppliers e parent? root).discard.snd
  | plant suppliers e root => exact (StoreM.plant_outcome o suppliers e root).snd
  | change m => exact Mutation.owned o m
  | prune r root =>
    rcases htree : s.tree? root with _ | tree
    · exact (Yields.of_error (pruneTree_of_none r htree) o).discard.snd
    · have h := (r.pruneTree_succeeds o htree).imp fun _ _ ht => ht.owned
      exact (Yields.of_succeeds h).discard.snd
  | applyAttributes =>
    have h := (StoreM.applyAttributes_succeeds o).imp fun _ _ ht => o.of_parallel ht
    exact (Yields.of_succeeds h).snd
  | annotate id f hf =>
    rcases hn : s.get? id with _ | n
    · exact (Yields.bind_of_error (StoreM.node_apply_of_none hn) o).snd
    · exact (Yields.of_eq (StoreM.update_apply hn f) (o.of_parallel (parallel_update hf id))).snd
  | absorb other o' => exact o.absorb o'

/-! ### Names -/

/-- What holds of all other steps, and of the steps that empty slots where an operation takes
them, holds of the operation. -/
theorem along {R : Store → Store → Prop} (g : Stepwise R) (op : Operation)
    (hdiscard : ∀ id, op = change (.discardSubtree id) → Relates R (StoreM.discardSubtree id))
    (hprune : ∀ r root, op = prune r root → Relates R (r.pruneTree root))
    (hupdate : ∀ s id {f}, Node.KeepsLinks f → R s (s.update id f))
    (habsorb : ∀ s other, R s (s.absorb other)) : Relates R op.perform := by
  cases op with
  | addTree source conformance => exact g.discard (g.addTree source conformance)
  | instantiate suppliers e parent? root => exact g.discard (g.instantiate suppliers e parent? root)
  | plant suppliers e root => exact g.plant suppliers e root
  | change m => exact g.mutation m fun id hm => hdiscard id (by rw [hm])
  | prune r root => exact g.discard (hprune r root rfl)
  | applyAttributes => exact g.applyAttributes
  | annotate id f hf => exact g.bind (g.node id) fun _ s => hupdate s id hf
  | absorb other _ => exact fun s => habsorb s other

/-- An operation keeps the names of statements. -/
theorem namesStable (op : Operation) (s : Store) : NamesStable s (op.perform s).2 := by
  have g := NamesStable.stepwise
  have hfree : ∀ s id, NamesStable s (Store.free s id) := fun _ id => NamesStable.free id
  exact op.along g (fun id _ => g.discardSubtree hfree id)
    (fun r root _ => g.pruneTree hfree r root) (fun _ id _ hf => NamesStable.update hf.face id)
    NamesStable.absorb s

/-- An operation that neither discards nor prunes leaves every statement as it was. -/
theorem keepsStatements (op : Operation) (hdiscard : ∀ id, op ≠ change (.discardSubtree id))
    (hprune : ∀ r root, op ≠ prune r root) (s : Store) : KeepsStatements s (op.perform s).2 := by
  refine op.along KeepsStatements.stepwise (fun id h => absurd h (hdiscard id))
    (fun r root h => absurd h (hprune r root)) (fun _ id _ hf => KeepsStatements.update hf.face id)
    KeepsStatements.absorb s

/-- A discarded subtree is emptied as a whole, and nothing else. -/
theorem discardSubtree_contains_iff (o : s.Owned) (id : NodeId) (hx : s.contains x = true) :
    (StoreM.discardSubtree id s).2.contains x = false ↔
      (StoreM.discardSubtree id s).1 = .ok () ∧ s.Below id x := by
  have h := StoreM.discardSubtree_emptied o id
  unfold Yields at h
  rcases hrun : StoreM.discardSubtree id s with ⟨e | a, t⟩ <;> rw [hrun] at h
  · rw [h, hx]
    exact ⟨nofun, fun hok => nomatch hok.1⟩
  · rw [and_iff_right rfl]
    refine ⟨fun hdead => ?_, h.2.1.not_contains_below⟩
    by_contra hnot
    rw [h.2.1.contains_of_not_below hnot, hx] at hdead
    cases hdead

/-- Pruning empties the slots of the subtrees that it takes out, and of nothing else. -/
theorem pruneTree_contains_iff (o : s.Owned) (r : FeatureRegistry) (root : RootId)
    (hx : s.contains x = true) :
    ((prune r root).perform s).2.contains x = false ↔ r.Removes s (s.topOf root).toList x := by
  rcases htree : s.tree? root with _ | tree
  · rw [topOf, htree]
    constructor
    · intro hdead
      rw [perform, discard_eq_bind, bind_apply, pruneTree_of_none r htree, hx] at hdead
      cases hdead
    · intro hremoves
      obtain ⟨c, hc, -⟩ := hremoves.exists_below
      cases hc
  · have h := (r.pruneTree_spec o htree).imp fun _ _ ht => ht.contains_eq_false_iff hx
    exact (Yields.of_succeeds h).discard.snd

/-- The live statements whose slots an operation empties are those of the subtrees that it
discards. -/
theorem contains_eq_false_iff (o : s.Owned) (op : Operation) (hx : s.contains x = true) :
    (op.perform s).2.contains x = false ↔ op.Frees s x := by
  have hkept : KeepsStatements s (op.perform s).2 →
    ((op.perform s).2.contains x = false ↔ False) := by
    intro h
    rw [h.contains hx]
    exact ⟨nofun, False.elim⟩
  cases op with
  | change m =>
    cases m with
    | discardSubtree id => exact discardSubtree_contains_iff o id hx
    | _ => exact hkept (keepsStatements _ (by nofun) (by nofun) s)
  | prune r root => exact pruneTree_contains_iff o r root hx
  | _ => exact hkept (keepsStatements _ (by nofun) (by nofun) s)

end Operation

/-! ## Empty slots -/

namespace Store

variable {s t u : Store} {x : NodeId}

/-- A number that names no statement.  No statement has it as its parent or as a child, it is
the top of no tree, and an operation that is given it fails for want of a statement.  The two
operations that are given another number as well look at the parent first. -/
structure Vacant (s : Store) (x : NodeId) : Prop where
  contains : s.contains x = false
  not_mem_childrenOf : ∀ p, x ∉ s.childrenOf p
  parentOf_ne : ∀ c, s.parentOf c ≠ some x
  topOf_ne : ∀ r, s.topOf r ≠ some x
  node : StoreM.node x s = (.error (.nodeNotFound x), s)
  childrenOf : StoreM.childrenOf x s = (.error (.nodeNotFound x), s)
  descendants : s.descendants x = .error (.nodeNotFound x)
  addChild_below : ∀ child index?,
    StoreM.addChild x child index? s = (.error (.nodeNotFound x), s)
  addChild : ∀ parent index?, StoreM.addChild parent x index? s =
    (.error (.nodeNotFound (if s.contains parent then x else parent)), s)
  appendChild_below : ∀ child, StoreM.appendChild x child s = (.error (.nodeNotFound x), s)
  appendChild : ∀ parent, StoreM.appendChild parent x s =
    (.error (.nodeNotFound (if s.contains parent then x else parent)), s)
  cloneSubtree_below : ∀ source,
    StoreM.cloneSubtree source x s = (.error (.nodeNotFound x), s)
  cloneSubtree : ∀ parent, StoreM.cloneSubtree x parent s =
    (.error (.nodeNotFound (if s.contains parent then x else parent)), s)
  discardSubtree : StoreM.discardSubtree x s = (.error (.nodeNotFound x), s)

/-- Nothing can be attached to a number without a statement. -/
theorem checkAttach_of_not_contains (hx : s.contains x = false) (child : NodeId) :
    s.checkAttach x child = .error (.nodeNotFound x) := by
  rw [checkAttach, node_of_not_contains hx]
  rfl

/-- A number without a statement cannot be attached. -/
theorem checkAttach_child_of_not_contains (hx : s.contains x = false) (parent : NodeId) :
    s.checkAttach parent x =
      .error (.nodeNotFound (if s.contains parent then x else parent)) := by
  by_cases hp : s.contains parent = true
  · obtain ⟨p, hp'⟩ := contains_iff.mp hp
    rw [checkAttach, node_of_get? hp', node_of_not_contains hx, if_pos hp]
    rfl
  · rw [if_neg hp, checkAttach_of_not_contains (Bool.eq_false_iff.mpr hp)]

/-- Adding a child fails without any change when the check fails. -/
theorem addChild_of_checkAttach_eq_error {parent child : NodeId} {e : Failure}
    (h : s.checkAttach parent child = .error e) (index? : Option Nat) :
    StoreM.addChild parent child index? s = (.error e, s) := by
  rw [StoreM.addChild, bind_apply, query_apply, h]

/-- By the invariant nothing mentions a number without a statement. -/
theorem Owned.vacant (o : s.Owned) (hx : s.contains x = false) : s.Vacant x := by
  have hdead : ∀ {p : Prop}, s.contains x = true → p := fun hlive => by
    rw [hx] at hlive
    cases hlive
  have hnone : s.get? x = none := by
    rw [← Option.isNone_iff_eq_none, ← Option.isSome_eq_false_iff]
    exact hx
  have hnode := StoreM.node_apply_of_none hnone
  have hbelow := fun child =>
    addChild_of_checkAttach_eq_error (checkAttach_of_not_contains hx child)
  have hchild := fun parent =>
    addChild_of_checkAttach_eq_error (checkAttach_child_of_not_contains hx parent)
  refine ⟨hx, fun p hp => hdead (o.wired.contains_child hp),
    fun c hc => hdead (o.wired.contains_parent hc),
    fun r hr => hdead (contains_of_rootOf (o.rooted.rootOf_top r x hr)),
    hnode, ?_, ?_, hbelow, hchild, fun child => hbelow child none, fun parent => hchild parent none,
    ?_, ?_, ?_⟩
  · rw [StoreM.childrenOf, bind_apply, hnode]
  · rw [Store.descendants, descendantsWithin, node_of_not_contains hx]
    rfl
  · intro source
    rw [StoreM.cloneSubtree, bind_apply, hnode]
  · intro parent
    rcases hp : s.get? parent with _ | p
    · rw [StoreM.cloneSubtree, bind_apply, StoreM.node_apply_of_none hp, contains, hp]
      rfl
    · rw [StoreM.cloneSubtree, bind_apply, StoreM.node_apply hp, contains, hp]
      simp only [bind_apply, get_apply, StoreM.copyWithin, hnode]
      rfl
  · rw [StoreM.discardSubtree, bind_apply, hnode]

/-! ## Runs -/

/-- The stores to which operations lead from a store, of which each may succeed or fail. -/
inductive OperationRun : Store → Store → Prop where
  | refl (s : Store) : OperationRun s s
  | step {s t : Store} (h : OperationRun s t) (op : Operation) : OperationRun s (op.perform t).2

namespace OperationRun

/-- The invariant holds along a whole run. -/
theorem owned (h : OperationRun s t) (o : s.Owned) : t.Owned := by
  induction h with
  | refl => exact o
  | step _ op ih => exact Operation.owned ih op

/-- Names are kept along a whole run. -/
theorem namesStable (h : OperationRun s t) : NamesStable s t := by
  induction h with
  | refl => exact NamesStable.refl _
  | step _ op ih => exact ih.trans (op.namesStable _)

end OperationRun

/-! ### Reachable stores -/

/-- A result that is left aside changes nothing. -/
theorem snd_discard {α : Type} (m : StoreM α) (s : Store) :
    (Functor.discard m s).2 = (m s).2 := by
  rw [discard_eq_bind, bind_apply]
  rcases m s with ⟨_ | _, _⟩ <;> rfl

/-- A run leads to every reachable store. -/
theorem Reachable.operationRun (h : Reachable s) : OperationRun {} s := by
  induction h with
  | empty => exact .refl _
  | addTree _ source conformance ih => exact ih.step (.addTree source conformance)
  | instantiate _ suppliers e parent? root ih =>
    rw [← snd_discard]
    exact ih.step (.instantiate suppliers e parent? root)
  | plant _ suppliers e root ih => exact ih.step (.plant suppliers e root)
  | change _ m ih => exact ih.step (.change m)
  | absorb _ h' ih _ => exact ih.step (.absorb _ h'.owned)

/-! ### Names along a run -/

/-- In a run that starts from the empty store a number is the name of one statement.  While it
is live its key, variant and element stay the same.  Once its slot has been emptied, no number
of a child, of a parent or of a top is the same, and what is given the number fails.  An
operation empties the slots of a subtree that it discards, and no others. -/
theorem OperationRun.lasting_names (h : OperationRun {} s) (h' : OperationRun s t) :
    (∀ x, s.contains x = true → t.contains x = true → t.faceOf x = s.faceOf x) ∧
    (∀ x, s.Freed x → t.Vacant x) ∧
    ∀ op : Operation, ∀ x, s.contains x = true →
      ((op.perform s).2.Freed x ↔ op.Frees s x) := by
  have o := h.owned Owned.empty
  refine ⟨fun x hx => h'.namesStable.faceOf x (lt_size_of_contains hx), fun x hx => ?_, ?_⟩
  · exact (h'.owned o).vacant (h'.namesStable.freed hx).contains
  · intro op x hx
    rw [← op.contains_eq_false_iff o hx]
    have hlt := Nat.lt_of_lt_of_le (lt_size_of_contains hx) (op.namesStable s).size_le
    exact ⟨Freed.contains, fun hdead => ⟨hlt, hdead⟩⟩

/-- The sample module after its leaf has been taken away and discarded. -/
def bareModule : Store :=
  let detached := ((Operation.change (.removeChild ⟨0⟩ ⟨1⟩)).perform sampleModule).2
  ((Operation.change (.discardSubtree ⟨1⟩)).perform detached).2

/-- Make another leaf below the top of the sample module. -/
def anotherLeaf : Operation := .instantiate {} (sampleNode .leaf).element (some ⟨0⟩) ⟨0⟩

/-- The number of the discarded leaf is not used again for another one. -/
theorem OperationRun.lasting_names_bareModule :
    OperationRun {} bareModule ∧ bareModule.Freed ⟨1⟩ ∧
      (anotherLeaf.perform bareModule).2.Vacant ⟨1⟩ := by
  have h : OperationRun {} bareModule := (reachable_sampleModule.operationRun.step _).step _
  have hfreed : bareModule.Freed ⟨1⟩ := ⟨by decide +kernel, by decide +kernel⟩
  exact ⟨h, hfreed, (lasting_names h ((refl _).step anotherLeaf)).2.1 ⟨1⟩ hfreed⟩

end Store
end StatementForest
