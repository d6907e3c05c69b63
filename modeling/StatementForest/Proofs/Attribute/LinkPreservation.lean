import StatementForest.Proofs.Store.BoundedWalks

/-!
# Attributes and links

The four attributes are written into the statements of a subtree.  None of these
writes touches a link.

Main results:

- Theorem `StoreM.assignNamespace_succeeds` and its three siblings: attributes are
  assigned below every live statement, and all links stay.
- Theorem `StoreM.assignNamespace_outcome` and its three siblings: without such a
  statement nothing happens.
-/

namespace StatementForest

/-! ## Writing one attribute -/

/-- Writing a namespace touches no link. -/
theorem Node.keepsLinks_namespace (uri : Option String) :
    Node.KeepsLinks fun n => { n with namespaceUri := uri } :=
  ⟨fun _ => rfl, fun _ => rfl, fun _ => rfl, fun _ => rfl⟩

theorem Node.keepsLinks_conformance (conformance : Option Conformance) :
    Node.KeepsLinks fun n => { n with conformance } :=
  ⟨fun _ => rfl, fun _ => rfl, fun _ => rfl, fun _ => rfl⟩

theorem Node.keepsLinks_status (status : Status) :
    Node.KeepsLinks fun n => { n with status } :=
  ⟨fun _ => rfl, fun _ => rfl, fun _ => rfl, fun _ => rfl⟩

theorem Node.keepsLinks_config (config : Bool) :
    Node.KeepsLinks fun n => { n with config } :=
  ⟨fun _ => rfl, fun _ => rfl, fun _ => rfl, fun _ => rfl⟩

namespace StoreM

open Store

variable {s : Store} {id : NodeId}

/-! ## Assigning to a subtree -/

/-- Handing down a namespace succeeds and keeps all links. -/
theorem assignNamespace_succeeds (w : s.Wired) (hid : s.contains id = true)
    (uri : Option String) :
    Succeeds (assignNamespace id uri) s fun _ t => Parallel s t :=
  updateBelow_succeeds w hid (Node.keepsLinks_namespace uri)

theorem assignConformance_succeeds (w : s.Wired) (hid : s.contains id = true)
    (conformance : Conformance) :
    Succeeds (assignConformance id conformance) s fun _ t => Parallel s t :=
  updateBelow_succeeds w hid (Node.keepsLinks_conformance (some conformance))

theorem assignStatus_succeeds (w : s.Wired) (hid : s.contains id = true)
    (inherited : Status) :
    Succeeds (assignStatus id inherited) s fun _ t => Parallel s t :=
  inherit_succeeds w Node.keepsLinks_status hid inherited

theorem assignConfig_succeeds (w : s.Wired) (hid : s.contains id = true)
    (inherited : Bool) :
    Succeeds (assignConfig id inherited) s fun _ t => Parallel s t :=
  inherit_succeeds w Node.keepsLinks_config hid inherited

/-! ## Assigning to any number -/

/-- An operation that fails at numbers without a statement, and succeeds at others
without touching a link, fails without any change or keeps the invariant. -/
theorem outcome_of_parallel (o : s.Owned) {m : StoreM Unit}
    (hlive : s.contains id = true → Succeeds m s fun _ t => Parallel s t)
    (hnone : s.contains id = false → ∃ e, m s = (.error e, s)) :
    Yields (fun _ t => t = s) m s fun _ t => t.Owned ∧ s.contains id = true := by
  rcases hid : s.contains id with _ | _
  · obtain ⟨e, he⟩ := hnone hid
    exact Yields.of_error he rfl
  · refine Yields.of_succeeds ((hlive hid).imp ?_)
    intro _ t ht
    exact ⟨o.of_parallel ht, rfl⟩

/-- Handing down a namespace fails without any change, or keeps the invariant. -/
theorem assignNamespace_outcome (o : s.Owned) (id : NodeId) (uri : Option String) :
    Yields (fun _ t => t = s) (assignNamespace id uri) s fun _ t =>
      t.Owned ∧ s.contains id = true :=
  outcome_of_parallel o (fun hid => assignNamespace_succeeds o.wired hid uri)
    fun hid => ⟨_, updateBelow_of_not_contains hid _⟩

theorem assignConformance_outcome (o : s.Owned) (id : NodeId) (conformance : Conformance) :
    Yields (fun _ t => t = s) (assignConformance id conformance) s fun _ t =>
      t.Owned ∧ s.contains id = true :=
  outcome_of_parallel o (fun hid => assignConformance_succeeds o.wired hid conformance)
    fun hid => ⟨_, updateBelow_of_not_contains hid _⟩

theorem assignStatus_outcome (o : s.Owned) (id : NodeId) (inherited : Status) :
    Yields (fun _ t => t = s) (assignStatus id inherited) s fun _ t =>
      t.Owned ∧ s.contains id = true :=
  outcome_of_parallel o (fun hid => assignStatus_succeeds o.wired hid inherited)
    fun hid => ⟨_, inherit_of_not_contains hid inherited⟩

theorem assignConfig_outcome (o : s.Owned) (id : NodeId) (inherited : Bool) :
    Yields (fun _ t => t = s) (assignConfig id inherited) s fun _ t =>
      t.Owned ∧ s.contains id = true :=
  outcome_of_parallel o (fun hid => assignConfig_succeeds o.wired hid inherited)
    fun hid => ⟨_, inherit_of_not_contains hid inherited⟩

end StoreM
end StatementForest
