import StatementForest.Build.Completion
import StatementForest.Proofs.Build.StoreGrowth

/-!
# Positions among siblings

A statement whose order among its siblings has a meaning is told how many of the earlier ones have
its key.  Its parent does so, in one pass over all its children, if it is a core statement.

Main results:

- Theorem `Store.Numbered.extend`: positions stay right while nothing happens to the siblings.
- Theorem `StoreM.numberChildren_numbers`: what one pass over the children does.
-/

namespace StatementForest

open Store

/-! ## Positions -/

namespace Node

variable {n m : Node}

/-- Statements that are the same thing are extensions together. -/
theorem isExtension_of_face (h : m.face = n.face) : m.isExtension = n.isExtension := by
  have hvariant : m.variant = n.variant := congrArg (·.2.1) h
  simp [isExtension, keyword?, hvariant]

/-- The order matters to statements that are the same thing. -/
theorem orderMatters_of_face (h : m.face = n.face) : m.orderMatters = n.orderMatters := by
  have hvariant : m.variant = n.variant := congrArg (·.2.1) h
  simp [orderMatters, hvariant]

end Node

namespace Store

variable {s t : Store} {p c x : NodeId} {children : List NodeId}

/-- The position that is kept with a statement. -/
def keptOrder (s : Store) (x : NodeId) : Option Nat := (s.get? x).bind (·.order)

/-- The position that a statement should have among some siblings, where its order has a meaning:
the number of the earlier ones with its key. -/
def placeAmong (s : Store) (children : List NodeId) (c : NodeId) : Option Nat :=
  match s.get? c with
  | some n => if n.orderMatters then some (s.earlierTwins children c n.key) else none
  | none => none

/-- The position that a child is told.  Only core statements number their children. -/
def dueOrder (s : Store) (p c : NodeId) : Option Nat :=
  if (s.get? p).any (!·.isExtension) then s.placeAmong (s.childrenOf p) c else none

/-- The children of a statement have the positions that they should have. -/
def Numbered (s : Store) (p : NodeId) : Prop :=
  ∀ c ∈ s.childrenOf p, s.keptOrder c = s.dueOrder p c

/-- The position of a statement is the one that it holds. -/
theorem keptOrder_of_get? {n : Node} (hn : s.get? x = some n) : s.keptOrder x = n.order := by
  rw [keptOrder, hn]
  rfl

/-- A change that keeps the position of a statement keeps all positions. -/
theorem keptOrder_update {f : Node → Node} (hf : ∀ n, (f n).order = n.order) (id x : NodeId) :
    (s.update id f).keptOrder x = s.keptOrder x := by
  rw [keptOrder, keptOrder, get?_update]
  split
  · rcases s.get? x with _ | n <;> simp [hf]
  · rfl

/-- Keeping a finding with its statement changes no position. -/
theorem keptOrder_attachFinding (f : Finding) (x : NodeId) :
    (s.attachFinding f).keptOrder x = s.keptOrder x := by
  unfold attachFinding
  split
  · refine keptOrder_update ?_ _ x
    exact fun _ => rfl
  · rfl

/-- Earlier siblings with a key stay as many while the siblings stay what they are. -/
theorem earlierTwins_congr (h : ∀ x ∈ children, t.faceOf x = s.faceOf x) (c : NodeId) (key : Key) :
    t.earlierTwins children c key = s.earlierTwins children c key := by
  refine List.countP_congr fun x hx => ?_
  have hkey := map_get?_of_faceOf (w := fun n => decide (n.key = key))
    (fun n m hface => by rw [show m.key = n.key from congrArg (·.1) hface])
    (h x ((List.takeWhile_prefix _).subset hx))
  have hany := congrArg (Option.any id) hkey
  rw [Option.any_map, Option.any_map] at hany
  simpa using hany

/-- The place among siblings depends on what they are. -/
theorem placeAmong_congr (h : ∀ x ∈ children, t.faceOf x = s.faceOf x)
    (hc : t.faceOf c = s.faceOf c) : t.placeAmong children c = s.placeAmong children c := by
  have hboth := map_get?_of_faceOf (w := fun n => (n.orderMatters, n.key)) (fun n m hface => by
    rw [Node.orderMatters_of_face hface, show m.key = n.key from congrArg (·.1) hface]) hc
  unfold placeAmong
  rcases hm : t.get? c with _ | m <;> rcases hn : s.get? c with _ | n <;>
    simp [hm, hn] at hboth
  · rfl
  · simp only [hboth, earlierTwins_congr h]

/-- The due position depends on what the siblings are. -/
theorem dueOrder_congr (hp : t.faceOf p = s.faceOf p) (hchildren : t.childrenOf p = s.childrenOf p)
    (h : ∀ x ∈ s.childrenOf p, t.faceOf x = s.faceOf x) (hc : c ∈ s.childrenOf p) :
    t.dueOrder p c = s.dueOrder p c := by
  have hcore := congrArg (Option.any id) (map_get?_of_faceOf (w := fun n => !n.isExtension)
    (fun n m hface => by rw [Node.isExtension_of_face hface]) hp)
  rw [Option.any_map, Option.any_map] at hcore
  simp only [dueOrder, hchildren, placeAmong_congr h (h c hc)]
  exact if_congr (Bool.coe_iff_coe.mpr hcore) rfl rfl

/-- Children that have been numbered stay so while nothing happens to them. -/
theorem Numbered.extend (h : s.Numbered p) (o : s.Owned) (hext : Extends s t)
    (hp : s.contains p = true) (hchildren : t.childrenOf p = s.childrenOf p)
    (horder : ∀ c ∈ s.childrenOf p, t.keptOrder c = s.keptOrder c) : t.Numbered p := by
  intro c hc
  rw [hchildren] at hc
  rw [horder c hc, h c hc]
  exact (dueOrder_congr (hext.faceOf p hp) hchildren
    (fun x hx => hext.faceOf x (o.wired.contains_child hx)) hc).symm

end Store

/-! ## One pass over the children -/

namespace StoreM

variable {s : Store} {id : NodeId}

/-- Writing a position touches no link. -/
theorem keepsLinks_order (position : Option Nat) :
    Node.KeepsLinks fun n => { n with order := position } :=
  ⟨fun _ => rfl, fun _ => rfl, fun _ => rfl, fun _ => rfl⟩

/-- Numbering one child tells it its place, and no other statement anything. -/
theorem numberChild_numbers (children : List NodeId) {child : NodeId}
    (h : s.contains child = true) :
    Succeeds (numberChild children child) s fun _ t => Parallel s t ∧
      t.keptOrder child = (s.placeAmong children child).or (s.keptOrder child) ∧
      ∀ x, x ≠ child → t.keptOrder x = s.keptOrder x := by
  obtain ⟨n, hn⟩ := contains_iff.mp h
  apply Yields.bind_of_eq (node_apply hn)
  by_cases horder : n.orderMatters = true
  · rw [if_pos horder]
    refine Yields.bind_get (Yields.of_eq (update_apply hn _) ⟨?_, ?_, fun x hx => ?_⟩)
    · exact parallel_update (keepsLinks_order _) child
    · simp [keptOrder, get?_update_self, placeAmong, hn, horder]
    · rw [keptOrder, get?_update_of_ne _ _ hx, keptOrder]
  · rw [if_neg horder]
    refine Yields.pure ⟨Parallel.refl s, ?_, fun x _ => rfl⟩
    simp [placeAmong, hn, horder]

/-- Numbering several children tells each of them its place among all. -/
theorem forM_numberChild (children todo : List NodeId) (h : ∀ c ∈ todo, s.contains c = true) :
    Succeeds (todo.forM (numberChild children)) s fun _ t => Parallel s t ∧
      (∀ c ∈ todo, t.keptOrder c = (s.placeAmong children c).or (s.keptOrder c)) ∧
      ∀ x, x ∉ todo → t.keptOrder x = s.keptOrder x := by
  induction todo generalizing s with
  | nil => exact Yields.pure ⟨Parallel.refl s, by simp, fun _ _ => rfl⟩
  | cons child rest ih =>
    change Succeeds (numberChild children child >>= fun _ => rest.forM (numberChild children)) s _
    refine Yields.bind (numberChild_numbers children (h child List.mem_cons_self)) ?_
    intro _ t ⟨hst, hself, hother⟩
    have hplace : ∀ c, t.placeAmong children c = s.placeAmong children c := fun c =>
      placeAmong_congr (fun x _ => hst.faceOf x) (hst.faceOf c)
    -- a child that comes again is told the same once more
    have hagain : ∀ c, (t.placeAmong children c).or (t.keptOrder c) =
        (s.placeAmong children c).or (s.keptOrder c) := by
      intro c
      by_cases hc : c = child
      · rw [hc, hself, hplace]
        rcases s.placeAmong children child with _ | _ <;> rfl
      · rw [hother c hc, hplace]
    refine Yields.imp (ih fun c hc => ?_) ?_
    · rw [hst.contains]
      exact h c (List.mem_cons_of_mem _ hc)
    intro _ u ⟨htu, htodo, hleft⟩
    refine ⟨hst.trans htu, fun c hc => ?_, fun x hx => ?_⟩
    · by_cases hrest : c ∈ rest
      · rw [htodo c hrest, hagain]
      · obtain rfl := (List.mem_cons.mp hc).resolve_right hrest
        rw [hleft c hrest, hself]
    · rw [List.mem_cons, not_or] at hx
      obtain ⟨hne, hrest⟩ := hx
      rw [hleft x hrest, hother x hne]

/-- One pass over the children of a statement. -/
theorem numberChildren_numbers (w : s.Wired) (hid : s.contains id = true) :
    Succeeds (numberChildren id) s fun _ t => Parallel s t ∧
      (∀ c ∈ s.childrenOf id,
        t.keptOrder c = (s.placeAmong (s.childrenOf id) c).or (s.keptOrder c)) ∧
      ∀ x, x ∉ s.childrenOf id → t.keptOrder x = s.keptOrder x := by
  obtain ⟨n, hn⟩ := contains_iff.mp hid
  apply Yields.bind_of_eq (childrenOf_apply hn)
  rw [← childrenOf_of_get? hn]
  exact forM_numberChild _ _ fun c hc => w.contains_child hc

end StoreM

end StatementForest
