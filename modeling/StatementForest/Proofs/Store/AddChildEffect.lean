import StatementForest.Proofs.Store.AtomicMutations

/-!
# What attaching a statement does

Putting a statement below a parent tells the statement its parent, takes its number out of one
list of children, puts it into another one, and takes its whole subtree into the tree of the
parent.  Nothing else in the store changes.  It happens under four conditions, and only then.

Main results:

- Theorems `Store.get?_detach`, `Store.get?_link`: the two halves of a move, statement by
  statement.
- Theorem `Store.Attached.unique`: a store is known when it is known what was attached.
- Theorem `StoreM.addChild_ok_exactly`: when a statement is put below another one, and which
  store comes of it.
-/

namespace StatementForest
namespace Store

variable {s t u : Store} {parent child x : NodeId} {index? : Option Nat}

/-! ## What an attachment is -/

/-- A list of children with one more at a place, or at the end when no place before the end
is asked for. -/
def placeChild (children : List NodeId) (child : NodeId) : Option Nat → List NodeId
  | none => children ++ [child]
  | some index => children.insertIdx (min index children.length) child

/-- The child goes to its place among the children. -/
theorem children_insertChild (n : Node) (child : NodeId) (index? : Option Nat) :
    (n.insertChild child index?).children = placeChild n.children child index? := by
  cases index? <;> simp [Node.insertChild, placeChild]

/-- The children of a statement after `child` has been attached to `parent`: the place is
counted among the other children of the parent, and an earlier parent loses the child. -/
def childrenOnceAttached (s : Store) (parent child : NodeId) (index? : Option Nat)
    (x : NodeId) : List NodeId :=
  if x = parent then placeChild ((s.childrenOf parent).erase child) child index?
  else if s.parentOf child = some x then (s.childrenOf x).erase child
  else s.childrenOf x

/-- The second store is the first one with `child` attached to `parent`.  Each statement
changes in the fields that are named here, and in no other one. -/
structure Attached (s t : Store) (parent child : NodeId) (index? : Option Nat) : Prop where
  size : t.slots.size = s.slots.size
  trees : t.trees = s.trees
  vacant : ∀ x, s.get? x = none → t.get? x = none
  moved : ∀ x n, s.get? x = some n → s.Below child x → ∃ root, s.rootOf parent = some root ∧
    t.get? x = some { n with root, parent := if x = child then some parent else n.parent }
  stayed : ∀ x n, s.get? x = some n → ¬ s.Below child x →
    t.get? x = some { n with children := s.childrenOnceAttached parent child index? x }

/-- A store is known when it is known what was attached. -/
theorem Attached.unique (h : Attached s t parent child index?)
    (h' : Attached s u parent child index?) : t = u := by
  refine eq_of_get? (h.size.trans h'.size.symm) (h.trees.trans h'.trees.symm) fun x => ?_
  rcases hn : s.get? x with _ | n
  · rw [h.vacant x hn, h'.vacant x hn]
  by_cases hx : s.Below child x
  · obtain ⟨root, hroot, ht⟩ := h.moved x n hn hx
    obtain ⟨root', hroot', hu⟩ := h'.moved x n hn hx
    rw [hroot] at hroot'
    cases hroot'
    rw [ht, hu]
  · rw [h.stayed x n hn hx, h'.stayed x n hn hx]

/-! ## The two halves of a move -/

/-- A statement that is not its parent does not list a statement. -/
theorem Wired.not_mem_children (w : s.Wired) {n : Node} (hn : s.get? x = some n)
    (hx : s.parentOf child ≠ some x) : child ∉ n.children := by
  rw [← childrenOf_of_get? hn]
  exact fun hmem => hx (w.parentOf_of_mem hmem)

/-- A detached statement names no parent, and no statement lists it. -/
theorem get?_detach (w : s.Wired) (child x : NodeId) :
    (s.detach child).get? x = (s.get? x).map fun n =>
      { n with
        parent := if x = child then none else n.parent
        children := n.children.erase child } := by
  rcases hn : s.get? x with _ | n
  · have hnone := (relinked_detach s child).contains x
    simpa [contains, hn] using hnone
  have hself : x = child → n.parent = s.parentOf child := by
    rintro rfl
    exact (parentOf_of_get? hn).symm
  unfold detach
  split
  · next previous hprevious =>
    have hindex : x = previous →
        n.children.eraseIdx ((s.childrenOf previous).idxOf child) = n.children.erase child := by
      rintro rfl
      rw [childrenOf_of_get? hn, List.erase_eq_eraseIdx_of_idxOf rfl]
    have herase : x ≠ previous → n.children.erase child = n.children := by
      intro hne
      refine List.erase_of_not_mem (w.not_mem_children hn ?_)
      rw [hprevious]
      exact fun heq => hne (Option.some.inj heq).symm
    simp only [unlink, get?_update, hn]
    by_cases hparent : x = previous
    · simp only [if_pos hparent, Option.map_some, hindex hparent]
      split <;> rfl
    · simp only [if_neg hparent, Option.map_some, herase hparent]
      split <;> rfl
  · next hnone =>
    have herase : n.children.erase child = n.children :=
      List.erase_of_not_mem (w.not_mem_children hn (by simp [hnone]))
    have hparent : (if x = child then none else n.parent) = n.parent := by
      split
      · next heq => rw [hself heq, hnone]
      · rfl
    rw [hn, Option.map_some, herase, hparent]

/-- A linked statement names its parent, and the parent lists it. -/
theorem get?_link (s : Store) (parent child : NodeId) (index? : Option Nat) (x : NodeId) :
    (s.link parent child index?).get? x = (s.get? x).map fun n =>
      { n with
        parent := if x = child then some parent else n.parent
        children := if x = parent then placeChild n.children child index? else n.children } := by
  rcases hn : s.get? x with _ | n <;>
    by_cases hchild : x = child <;> by_cases hparent : x = parent <;>
      simp_all [link, get?_update, ← children_insertChild, Node.insertChild]

/-- Both halves together, before the moved subtree enters the tree of the parent. -/
theorem get?_link_detach (w : s.Wired) (parent child : NodeId) (index? : Option Nat)
    {n : Node} (hn : s.get? x = some n) :
    ((s.detach child).link parent child index?).get? x = some
      { n with
        parent := if x = child then some parent else n.parent
        children := s.childrenOnceAttached parent child index? x } := by
  have hchildren : s.childrenOnceAttached parent child index? x =
      if x = parent then placeChild (n.children.erase child) child index?
      else n.children.erase child := by
    unfold childrenOnceAttached
    split
    · next hparent => rw [← hparent, childrenOf_of_get? hn]
    · rw [childrenOf_of_get? hn]
      split
      · rfl
      · next hprevious => exact (List.erase_of_not_mem (w.not_mem_children hn hprevious)).symm
  rw [get?_link, get?_detach w, hn, hchildren, Option.map_some, Option.map_some]
  by_cases hchild : x = child <;> simp [hchild]

/-- No statement of the moved subtree gains or loses a child. -/
theorem childrenOnceAttached_of_below (w : s.Wired) (hnot : ¬ s.Below child parent)
    (hx : s.Below child x) :
    s.childrenOnceAttached parent child index? x = s.childrenOf x := by
  have hparent : x ≠ parent := by
    rintro rfl
    exact hnot hx
  have hprevious : s.parentOf child ≠ some x :=
    fun h => (w.grounded x).not_below_parent h hx
  rw [childrenOnceAttached, if_neg hparent, if_neg hprevious]

/-! ## The change as a whole -/

/-- The subtree that has been detached and linked has to enter the tree of the parent. -/
theorem Attached.of_rerooted (w : s.Wired) (hnot : ¬ s.Below child parent) {root : RootId}
    (hroot : s.rootOf parent = some root) (hlive : s.contains child = true)
    (h : Rerooted ((s.detach child).link parent child index?) t child root) :
    Attached s t parent child index? := by
  have hdetach := relinked_detach s child
  have hlink : Relinked (s.detach child) ((s.detach child).link parent child index?) child
      (some parent) := relinked_link (by rw [hdetach.contains, hlive]) parent index?
  have hboth := hdetach.trans hlink
  constructor
  case size => exact h.size.trans hboth.size
  case trees => exact h.trees.trans hboth.trees
  case vacant =>
    intro x hx
    have hvacant : t.contains x = false := by
      rw [h.contains, hboth.contains, contains, hx]
      rfl
    rwa [contains, Option.isSome_eq_false_iff, Option.isNone_iff_eq_none] at hvacant
  case moved =>
    intro x n hn hx
    refine ⟨root, hroot, ?_⟩
    rw [h.get?_below x (hboth.below_iff.mpr hx), get?_link_detach w parent child index? hn,
      childrenOnceAttached_of_below w hnot hx, childrenOf_of_get? hn]
    rfl
  case stayed =>
    intro x n hn hx
    have hchild : x ≠ child := by
      rintro rfl
      exact hx .self
    rw [h.get?_of_not_below x (fun hb => hx (hboth.below_iff.mp hb)),
      get?_link_detach w parent child index? hn, if_neg hchild]

end Store

namespace StoreM

open Store

variable {s : Store} {parent child : NodeId}

/-- Adding a child that may be attached attaches it and changes nothing else. -/
theorem addChild_attaches (o : s.Owned) (h : Attachable s parent child) (index? : Option Nat) :
    Succeeds (addChild parent child index?) s fun _ t => Attached s t parent child index? := by
  unfold Succeeds Yields
  rw [addChild_apply o h]
  refine (linkChild_rerooted (o.detach child) h.detach
    (relinked_detach s child).parentOf_self index?).imp ?_
  intro _ t ⟨root, hroot, ht⟩
  rw [rootOf_detach] at hroot
  exact Attached.of_rerooted o.wired h.not_below hroot h.child_live ht

/-- When a statement is put below another one, and which store comes of it. -/
theorem addChild_ok_exactly (o : s.Owned) (parent child : NodeId) (index? : Option Nat) :
    ((∃ t, addChild parent child index? s = (.ok (), t)) ↔ Attachable s parent child) ∧
      ∀ t, addChild parent child index? s = (.ok (), t) ↔
        Attachable s parent child ∧ Attached s t parent child index? := by
  by_cases h : Attachable s parent child
  · obtain ⟨_, t, hrun, ht⟩ := (addChild_attaches o h index?).exists_result
    refine ⟨⟨fun _ => h, fun _ => ⟨t, hrun⟩⟩, fun u => ?_⟩
    rw [hrun]
    constructor
    · intro heq
      cases heq
      exact ⟨h, ht⟩
    · rintro ⟨-, hu⟩
      rw [ht.unique hu]
  · have hcheck : s.checkAttach parent child ≠ .ok () :=
      fun hok => h ((attachable_iff o.wired).mp hok)
    obtain ⟨e, he⟩ : ∃ e, s.checkAttach parent child = .error e := by
      rcases hrun : s.checkAttach parent child with e | _
      · exact ⟨e, rfl⟩
      · exact absurd hrun hcheck
    rw [addChild_of_error he]
    refine ⟨⟨nofun, fun hok => absurd hok h⟩, fun t => ⟨nofun, fun hok => absurd hok.1 h⟩⟩

/-- The leaf on its own is attached to the module in front of the other one. -/
theorem addChild_ok_exactly_sample :
    Store.sample.Owned ∧ Attachable Store.sample ⟨0⟩ ⟨2⟩ ∧
      Attached Store.sample (addChild ⟨0⟩ ⟨2⟩ (some 0) Store.sample).2 ⟨0⟩ ⟨2⟩ (some 0) :=
  ⟨Store.sample_owned,
    ((addChild_ok_exactly Store.sample_owned ⟨0⟩ ⟨2⟩ (some 0)).2 _).mp
      (Prod.ext (by decide +kernel) rfl)⟩

end StoreM
end StatementForest
