import StatementForest.Proofs.Store.AtomicMutations

/-!
# What a successful change was asked

A change that succeeds tells something about the request.  The statements that it names were
live, what it was to take away was there, and what it was to put somewhere is there now.

One request is exempt.  A statement that is to replace itself is not looked at, and its parent
is not either, so this succeeds for any two numbers and does nothing.

Main results:

- Theorem `Mutation.discloses`: a change either fails, or shows that its request was valid, or
  was exempt.
- Theorem `Mutation.valid_of_perform_eq_ok`: the request of a change that has succeeded is
  valid unless it was exempt, and an exempt one always succeeds.
-/

namespace StatementForest
namespace Mutation

open Store

variable {s t : Store} {m : Mutation}

/-! ## Requests -/

/-- The statements that a change names. -/
def nodes : Mutation → List NodeId
  | addChild parent child _ | appendChild parent child | removeChild parent child =>
    [parent, child]
  | replaceChild parent old new => [parent, old, new]
  | replaceChildrenWithKey parent _ new => parent :: new
  | cloneSubtree source newParent => [source, newParent]
  | linkSubmodule _ _ => []
  | discardSubtree id | assignNamespace id _ | assignConformance id _ | assignStatus id _
  | assignConfig id _ => [id]

/-- The statements that a change is to take away, each with the parent that it is to leave. -/
def departures : Mutation → List (NodeId × NodeId)
  | removeChild parent child => [(parent, child)]
  | replaceChild parent old _ => [(parent, old)]
  | _ => []

/-- The statements that a change is to put somewhere, each with its new parent. -/
def arrivals : Mutation → List (NodeId × NodeId)
  | addChild parent child _ | appendChild parent child => [(parent, child)]
  | replaceChild parent _ new => [(parent, new)]
  | replaceChildrenWithKey parent _ new => new.map fun child => (parent, child)
  | _ => []

/-- A change from `s` to `t` had a valid request, and did what was asked. -/
structure Valid (m : Mutation) (s t : Store) : Prop where
  live : ∀ x ∈ m.nodes, s.contains x = true
  departed : ∀ move ∈ m.departures, move.2 ∈ s.childrenOf move.1
  arrived : ∀ move ∈ m.arrivals, move.2 ∈ t.childrenOf move.1

/-- The request to replace a statement by itself. -/
def Exempt (m : Mutation) : Prop := ∃ parent x, m = replaceChild parent x x

/-! ## What success shows -/

/-- A change that moves nothing has a valid request when the statements it names are live. -/
theorem Valid.of_live (hnodes : ∀ x ∈ m.nodes, s.contains x = true)
    (hdepartures : m.departures = []) (harrivals : m.arrivals = []) : m.Valid s t where
  live := hnodes
  departed := by simp [hdepartures]
  arrived := by simp [harrivals]

/-- A change that moves nothing and names one statement. -/
theorem Valid.of_one_live {id : NodeId} (hid : s.contains id = true) (hnodes : m.nodes = [id])
    (hdepartures : m.departures = []) (harrivals : m.arrivals = []) : m.Valid s t :=
  of_live (by simp [hnodes, hid]) hdepartures harrivals

/-- A child that has been added was allowed to be. -/
theorem Valid.of_added {parent child : NodeId}
    (h : t.Owned ∧ Relinked s t child (some parent) ∧ StoreM.Attachable s parent child)
    (hnodes : m.nodes = [parent, child]) (hdepartures : m.departures = [])
    (harrivals : m.arrivals = [(parent, child)]) : m.Valid s t where
  live := by simp [hnodes, h.2.2.parent_live, h.2.2.child_live]
  departed := by simp [hdepartures]
  arrived := by simp [harrivals, h.1.wired.mem_of_parentOf h.2.1.parentOf_self]

/-- What an outcome says of success is enough. -/
theorem discloses_of {E : Failure → Store → Prop} {Q : Store → Prop}
    (h : Yields E m.perform s fun _ t => Q t) (hQ : ∀ t, Q t → m.Exempt ∨ m.Valid s t) :
    Yields (fun _ _ => True) m.perform s fun _ t => m.Exempt ∨ m.Valid s t :=
  h.mono (fun _ t ht => hQ t ht) fun _ _ _ => trivial

/-- A change either fails, or shows that its request was valid, or was exempt. -/
theorem discloses (o : s.Owned) (m : Mutation) :
    Yields (fun _ _ => True) m.perform s fun _ t => m.Exempt ∨ m.Valid s t := by
  cases m with
  | addChild parent child index? =>
    apply discloses_of (StoreM.addChild_outcome o parent child index?)
    exact fun t ht => .inr (.of_added ht rfl rfl rfl)
  | appendChild parent child =>
    apply discloses_of (StoreM.addChild_outcome o parent child none)
    exact fun t ht => .inr (.of_added ht rfl rfl rfl)
  | removeChild parent child =>
    apply discloses_of (StoreM.removeChild_outcome o parent child).discard
    rintro t ⟨-, -, h⟩
    refine .inr ⟨?_, ?_, by simp [arrivals]⟩
    · simp [nodes, contains_of_parentOf h, o.wired.contains_parent h]
    · simp [departures, o.wired.mem_of_parentOf h]
  | replaceChild parent old new =>
    apply discloses_of (StoreM.replaceChild_outcome o parent old new)
    rintro t ⟨ot, ⟨rfl, -⟩ | ⟨hold, h, hnew⟩⟩
    · exact .inl ⟨parent, old, rfl⟩
    · refine .inr ⟨?_, ?_, ?_⟩
      · simp [nodes, h.parent_live, h.child_live, contains_of_parentOf hold]
      · simp [departures, o.wired.mem_of_parentOf hold]
      · simp [arrivals, ot.wired.mem_of_parentOf hnew]
  | replaceChildrenWithKey parent key new =>
    apply discloses_of (StoreM.replaceChildrenWithKey_outcome o parent key new).discard
    rintro t ⟨ot, hparent, h⟩
    refine .inr ⟨?_, by simp [departures], ?_⟩
    · simpa [nodes, hparent] using fun c hc => (h c hc).1.child_live
    · simpa [arrivals] using fun c hc => ot.wired.mem_of_parentOf (h c hc).2
  | cloneSubtree source newParent =>
    apply discloses_of (StoreM.cloneSubtree_outcome o source newParent).discard
    rintro t ⟨-, hsource, hparent⟩
    exact .inr (.of_live (by simp [nodes, hsource, hparent]) rfl rfl)
  | linkSubmodule owner submodule =>
    apply discloses_of (StoreM.linkSubmodule_outcome o owner submodule)
    exact fun t _ => .inr (.of_live (by simp [nodes]) rfl rfl)
  | discardSubtree id =>
    apply discloses_of (StoreM.discardSubtree_emptied o id)
    exact fun t ht => .inr (.of_one_live ht.2.2 rfl rfl rfl)
  | assignNamespace id uri =>
    apply discloses_of (StoreM.assignNamespace_outcome o id uri)
    exact fun t ht => .inr (.of_one_live ht.2 rfl rfl rfl)
  | assignConformance id conformance =>
    apply discloses_of (StoreM.assignConformance_outcome o id conformance)
    exact fun t ht => .inr (.of_one_live ht.2 rfl rfl rfl)
  | assignStatus id inherited =>
    apply discloses_of (StoreM.assignStatus_outcome o id inherited)
    exact fun t ht => .inr (.of_one_live ht.2 rfl rfl rfl)
  | assignConfig id inherited =>
    apply discloses_of (StoreM.assignConfig_outcome o id inherited)
    exact fun t ht => .inr (.of_one_live ht.2 rfl rfl rfl)

/-- An exempt request is granted without a look at the store. -/
theorem perform_of_exempt (h : m.Exempt) : m.perform s = (.ok ⟨⟩, s) := by
  obtain ⟨parent, x, rfl⟩ := h
  simp [perform, StoreM.replaceChild]

/-- The request of a change that has succeeded is valid unless it was exempt.  An exempt
request always succeeds, and does nothing. -/
theorem valid_of_perform_eq_ok (o : s.Owned) (m : Mutation) :
    (¬ m.Exempt → ∀ t, m.perform s = (.ok ⟨⟩, t) → m.Valid s t) ∧
      (m.Exempt → m.perform s = (.ok ⟨⟩, s)) := by
  refine ⟨fun hexempt t h => ?_, perform_of_exempt⟩
  exact ((discloses o m).result h).resolve_left hexempt

/-- The sample has a child that can be taken away. -/
theorem valid_of_perform_eq_ok_sample :
    Store.sample.Owned ∧ ¬ (removeChild ⟨0⟩ ⟨1⟩).Exempt ∧
      (removeChild ⟨0⟩ ⟨1⟩).perform Store.sample =
        (.ok ⟨⟩, ((removeChild ⟨0⟩ ⟨1⟩).perform Store.sample).2) ∧
      (removeChild ⟨0⟩ ⟨1⟩).Valid Store.sample ((removeChild ⟨0⟩ ⟨1⟩).perform Store.sample).2 := by
  have hexempt : ¬ (removeChild ⟨0⟩ ⟨1⟩).Exempt := by simp [Exempt]
  have hrun : (removeChild ⟨0⟩ ⟨1⟩).perform Store.sample =
      (.ok ⟨⟩, ((removeChild ⟨0⟩ ⟨1⟩).perform Store.sample).2) :=
    Prod.ext (by decide +kernel) rfl
  exact ⟨Store.sample_owned, hexempt, hrun,
    (valid_of_perform_eq_ok Store.sample_owned (removeChild ⟨0⟩ ⟨1⟩)).1 hexempt _ hrun⟩

/-- The replacement of a number that no statement of the sample has succeeds. -/
theorem stale_replacement_succeeds :
    Store.sample.Owned ∧ Store.sample.contains ⟨9⟩ = false ∧
      (replaceChild ⟨0⟩ ⟨9⟩ ⟨9⟩).perform Store.sample = (.ok ⟨⟩, Store.sample) ∧
      ¬ (replaceChild ⟨0⟩ ⟨9⟩ ⟨9⟩).Valid Store.sample Store.sample := by
  have hstale : Store.sample.contains ⟨9⟩ = false := by decide +kernel
  refine ⟨Store.sample_owned, hstale, perform_of_exempt ⟨⟨0⟩, ⟨9⟩, rfl⟩, ?_⟩
  intro h
  have hlive := h.live ⟨9⟩ (by simp [nodes])
  rw [hstale] at hlive
  cases hlive

end Mutation
end StatementForest
