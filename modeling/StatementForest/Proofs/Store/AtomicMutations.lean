import StatementForest.Proofs.Attribute.LinkPreservation
import StatementForest.Proofs.Store.DiscardedSubtrees
import StatementForest.Proofs.Store.TreesAndTops

/-!
# Failed changes leave no trace

All changes of a store that satisfies the invariant either happen as a whole or
not at all.  A change is a value here, so that one statement covers every change
with every choice of its arguments.

Main results:

- Theorem `Mutation.outcome`: a change keeps the invariant, and a change that
  fails leaves the store as it was.
- Theorem `Mutation.eq_of_perform_eq_error`: the second half on its own.
-/

namespace StatementForest

/-! ## Changes -/

/-- A change of a store, with its arguments. -/
inductive Mutation where
  | addChild (parent child : NodeId) (index? : Option Nat)
  | appendChild (parent child : NodeId)
  | removeChild (parent child : NodeId)
  | replaceChild (parent old new : NodeId)
  | replaceChildrenWithKey (parent : NodeId) (key : Key) (new : List NodeId)
  | cloneSubtree (source newParent : NodeId)
  | discardSubtree (id : NodeId)
  | linkSubmodule (owner submodule : RootId)
  | assignNamespace (id : NodeId) (uri : Option String)
  | assignConformance (id : NodeId) (conformance : Conformance)
  | assignStatus (id : NodeId) (inherited : Status)
  | assignConfig (id : NodeId) (inherited : Bool)

namespace Mutation

/-- Carry out a change. -/
def perform : Mutation → StoreM Unit
  | addChild parent child index? => StoreM.addChild parent child index?
  | appendChild parent child => StoreM.appendChild parent child
  | removeChild parent child => discard (StoreM.removeChild parent child)
  | replaceChild parent old new => StoreM.replaceChild parent old new
  | replaceChildrenWithKey parent key new =>
    discard (StoreM.replaceChildrenWithKey parent key new)
  | cloneSubtree source newParent => discard (StoreM.cloneSubtree source newParent)
  | discardSubtree id => StoreM.discardSubtree id
  | linkSubmodule owner submodule => StoreM.linkSubmodule owner submodule
  | assignNamespace id uri => StoreM.assignNamespace id uri
  | assignConformance id conformance => StoreM.assignConformance id conformance
  | assignStatus id inherited => StoreM.assignStatus id inherited
  | assignConfig id inherited => StoreM.assignConfig id inherited

variable {s : Store}

/-- A change fails and leaves the store as it was, or succeeds and keeps the
invariant. -/
theorem outcome (o : s.Owned) (m : Mutation) :
    Yields (fun _ t => t = s) m.perform s fun _ t => t.Owned := by
  cases m with
  | addChild parent child index? =>
    exact (StoreM.addChild_outcome o parent child index?).imp fun _ _ ht => ht.1
  | appendChild parent child =>
    exact (StoreM.addChild_outcome o parent child none).imp fun _ _ ht => ht.1
  | removeChild parent child =>
    exact ((StoreM.removeChild_outcome o parent child).imp fun _ _ ht => ht.1).discard
  | replaceChild parent old new =>
    exact (StoreM.replaceChild_outcome o parent old new).imp fun _ _ ht => ht.1
  | replaceChildrenWithKey parent key new =>
    exact ((StoreM.replaceChildrenWithKey_outcome o parent key new).imp fun _ _ ht => ht.1).discard
  | cloneSubtree source newParent =>
    exact ((StoreM.cloneSubtree_outcome o source newParent).imp fun _ _ ht => ht.1).discard
  | discardSubtree id => exact (StoreM.discardSubtree_emptied o id).imp fun _ _ ht => ht.1
  | linkSubmodule owner submodule => exact StoreM.linkSubmodule_outcome o owner submodule
  | assignNamespace id uri =>
    exact (StoreM.assignNamespace_outcome o id uri).imp fun _ _ ht => ht.1
  | assignConformance id conformance =>
    exact (StoreM.assignConformance_outcome o id conformance).imp fun _ _ ht => ht.1
  | assignStatus id inherited =>
    exact (StoreM.assignStatus_outcome o id inherited).imp fun _ _ ht => ht.1
  | assignConfig id inherited =>
    exact (StoreM.assignConfig_outcome o id inherited).imp fun _ _ ht => ht.1

/-- Every change keeps the invariant, whether it succeeds or fails. -/
theorem owned (o : s.Owned) (m : Mutation) : (m.perform s).2.Owned := by
  have h : Yields (fun _ t => t.Owned) m.perform s fun _ t => t.Owned := by
    refine (outcome o m).mono (fun _ _ ht => ht) ?_
    rintro _ _ rfl
    exact o
  exact h.snd

/-- A change that fails leaves every statement and every tree as it was. -/
theorem eq_of_perform_eq_error (o : s.Owned) (m : Mutation) {e : Failure} {t : Store}
    (h : m.perform s = (.error e, t)) : t = s := by
  have hm := outcome o m
  unfold Yields at hm
  rw [h] at hm
  exact hm

end Mutation

/-! ## A refused replacement -/

namespace Store

/-- A statement of the core language that stands on its own. -/
def sampleNode (k : Keyword) : Node where
  key := Key.core k.text
  variant := .core k
  element :=
    { name := k.text, value := none, line := none, source := none, scope := ⟨"", Dictionary.empty⟩,
      children := [] }
  root := ⟨0⟩

/-- A module with a leaf below it, and another leaf that stands on its own. -/
def sample : Store :=
  let empty : Store := {}
  let s := (((empty.addTree none .implement).2.alloc (sampleNode .module)).2.alloc
    (sampleNode .leaf)).2
  ((StoreM.appendChild ⟨0⟩ ⟨1⟩ s).2.alloc (sampleNode .leaf)).2

/-- The sample store satisfies the invariant. -/
theorem sample_owned : sample.Owned := by
  refine Owned.alloc ?_ rfl rfl
  refine Mutation.owned (m := .appendChild ⟨0⟩ ⟨1⟩) ?_
  exact ((Owned.empty.addTree none .implement).alloc rfl rfl).alloc rfl rfl

end Store

/-- A replacement whose first new child would fit, but whose second one is the parent. -/
def Mutation.replacementByParent : Mutation :=
  replaceChildrenWithKey ⟨0⟩ (Key.core "leaf") [⟨2⟩, ⟨0⟩]

/-- The replacement fails at its second child, and the store is left as it was. -/
theorem Mutation.replacementByParent_changes_nothing :
    Store.sample.Owned ∧ replacementByParent.perform Store.sample =
      (.error (.invalidMutation (.underOwnDescendant ⟨0⟩ ⟨0⟩)), Store.sample) := by
  have h : replacementByParent.perform Store.sample =
      (.error (.invalidMutation (.underOwnDescendant ⟨0⟩ ⟨0⟩)),
        (replacementByParent.perform Store.sample).2) :=
    Prod.ext (by decide +kernel) rfl
  refine ⟨Store.sample_owned, ?_⟩
  rw [h, eq_of_perform_eq_error Store.sample_owned _ h]

end StatementForest
