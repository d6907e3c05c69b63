import StatementForest.Proofs.Store.AtomicMutations
import StatementForest.Proofs.Store.MergedStores

/-!
# Reachable stores

A store is reachable when it results from the empty one by operations with any
arguments, of which each may succeed or fail.  A store that is merged into another
one has come about in the same way.

Main results:

- Theorem `Store.Reachable.owned`: every reachable store satisfies the invariant.
- Theorem `Store.Reachable.single_owner`: the invariant for all reachable stores,
  together with what it means for the lists of children as a whole.

Current gaps:

- Numbers are unbounded, so no operation fails for want of a slot.
-/

namespace StatementForest
namespace StoreM

/-- Make a statement for an element, and make it the top of a tree. -/
def plant (suppliers : Suppliers) (e : Element) (root : RootId) : StoreM Unit := do
  match ← instantiate suppliers e none root with
  | .created top => setTop root top
  | .rejected _ => pure ()

open Store

/-- Planting keeps the invariant.  Without the tree the statement is made, and stays
on its own. -/
theorem plant_outcome {s : Store} (o : s.Owned) (suppliers : Suppliers) (e : Element)
    (root : RootId) :
    Yields (fun _ t => t.Owned) (plant suppliers e root) s fun _ t => t.Owned := by
  rcases h : suppliers.resolveElement e with finding | r
  · exact Yields.bind_of_eq (instantiate_of_error h none) (Yields.pure o)
  have onew : (s.alloc (freshNode e r root)).2.Owned := o.alloc rfl rfl
  have hself := get?_alloc_fresh s (freshNode e r root)
  apply Yields.bind_of_eq (instantiate_none_apply h)
  rcases htree : (s.alloc (freshNode e r root)).2.tree? root with _ | tree
  · exact Yields.of_error (setTop_of_none htree s.fresh) onew
  · refine Yields.of_succeeds ((setTop_succeeds onew htree ?_ ?_).imp fun _ _ ht => ht.1)
    · rw [rootOf_of_get? hself]
      rfl
    · rw [parentOf_of_get? hself]
      rfl

end StoreM

namespace Store

/-- The stores that operations lead to.  The store that an operation leaves behind
counts also when the operation fails. -/
inductive Reachable : Store → Prop where
  | empty : Reachable {}
  | addTree {s : Store} (h : Reachable s) (source : Option String) (conformance : Conformance) :
      Reachable (s.addTree source conformance).2
  | instantiate {s : Store} (h : Reachable s) (suppliers : Suppliers) (e : Element)
      (parent? : Option NodeId) (root : RootId) :
      Reachable (StoreM.instantiate suppliers e parent? root s).2
  | plant {s : Store} (h : Reachable s) (suppliers : Suppliers) (e : Element) (root : RootId) :
      Reachable (StoreM.plant suppliers e root s).2
  | change {s : Store} (h : Reachable s) (m : Mutation) : Reachable (m.perform s).2
  | absorb {s other : Store} (h : Reachable s) (h' : Reachable other) :
      Reachable (s.absorb other)

namespace Reachable

variable {s : Store}

/-- Every reachable store satisfies the invariant. -/
theorem owned (h : Reachable s) : s.Owned := by
  induction h with
  | empty => exact Owned.empty
  | addTree _ source conformance ih => exact ih.addTree source conformance
  | instantiate _ suppliers e parent? root ih =>
    exact (StoreM.instantiate_outcome ih suppliers e parent? root).snd
  | plant _ suppliers e root ih => exact (StoreM.plant_outcome ih suppliers e root).snd
  | change _ m ih => exact Mutation.owned ih m
  | absorb _ _ ih ih' => exact ih.absorb ih'

/-- In a reachable store the invariant holds, and each child is a live statement that
occurs once in all lists of children together. -/
theorem single_owner (h : Reachable s) :
    s.Owned ∧ ∀ p c, c ∈ s.childrenOf p →
      s.contains c = true ∧ (s.liveIds.flatMap s.childrenOf).count c = 1 := by
  have o := h.owned
  refine ⟨o, fun p c hc => ⟨o.wired.contains_child hc, ?_⟩⟩
  exact o.wired.count_children hc

end Reachable

/-! ## Two forests of the same shape -/

/-- A module with one leaf, made from elements. -/
def sampleModule : Store :=
  let leaf := (sampleNode .leaf).element
  let module := (sampleNode .module).element
  let s := (({} : Store).addTree none .implement).2
  (StoreM.instantiate {} leaf (some ⟨0⟩) ⟨0⟩ (StoreM.plant {} module ⟨0⟩ s).2).2

/-- Two such modules in one store, from which a number without a statement was to be
discarded. -/
def sampleModules : Store :=
  ((Mutation.discardSubtree ⟨9⟩).perform (sampleModule.absorb sampleModule)).2

/-- The sample module can be reached by operations. -/
theorem reachable_sampleModule : Reachable sampleModule :=
  ((Reachable.empty.addTree none .implement).plant _ _ _).instantiate _ _ _ _

/-- In two merged modules each leaf is listed once. -/
theorem Reachable.single_owner_sampleModules :
    Reachable sampleModules ∧
      (sampleModules.liveIds.flatMap sampleModules.childrenOf).count ⟨3⟩ = 1 := by
  have h : Reachable sampleModules :=
    (reachable_sampleModule.absorb reachable_sampleModule).change _
  have hchild : (⟨3⟩ : NodeId) ∈ sampleModules.childrenOf ⟨2⟩ := by decide +kernel
  exact ⟨h, (single_owner h).2 ⟨2⟩ ⟨3⟩ hchild |>.2⟩

end Store
end StatementForest
