import StatementForest.Proofs.Store.ReachableStores

/-!
# Walks up and down agree

A walk downwards follows the lists of children and keeps the statements that wait for their visit.
A walk upwards follows the parents and keeps the statement where it stands.  As loops neither has a
bound of its own.  Where children and parents agree both come to an end, the bounded walks tell in
which state, and what the one finds is what the other one finds.

Main results:

- Theorem `Store.depthFirst_of_descendants`: in any store, a list of a subtree is its depth-first
  order.
- Theorem `Store.DepthFirst.endsAt`, `Store.endsAt_of_descendants`: a walk downwards ends when it
  has visited all in this order.
- Theorem `Store.Grounded.exists_endsAt`: a walk upwards ends, and it ends at the statement it
  looks for when that stands above.
- Theorem `Store.Owned.walks_agree`: the list of a subtree, its order, and the statements that
  have its first one above them.

Current gaps:

- The walks are loops over lists.  How much memory a list of waiting statements takes is not
  stated.
-/

namespace StatementForest

open Relation (ReflTransGen)

/-! ## Ends of loops -/

/-- Rounds of a loop come to an end, and there is one state in which they end. -/
structure EndsAt {σ : Type} (round : σ → σ → Prop) (start last : σ) : Prop where
  /-- There is no endless sequence of rounds. -/
  acc : Acc (fun t s => round s t) start
  reaches : ReflTransGen round start last
  stops : ∀ next, ¬ round last next
  only : ∀ t, ReflTransGen round start t → (∀ next, ¬ round t next) → t = last

namespace EndsAt

variable {σ : Type} {round : σ → σ → Prop} {s t last : σ}

/-- Where there is no round, there it ends. -/
theorem of_stops (h : ∀ next, ¬ round s next) : EndsAt round s s where
  acc := Acc.intro s fun next hnext => absurd hnext (h next)
  reaches := .refl
  stops := h
  only t ht _ := by
    rcases ht.cases_head with heq | ⟨next, hnext, _⟩
    · exact heq.symm
    · exact absurd hnext (h next)

/-- A round goes before all others when there is no other choice. -/
theorem head (h : EndsAt round t last) (hround : round s t)
    (honly : ∀ next, round s next → next = t) : EndsAt round s last where
  acc := Acc.intro s fun next hnext => honly next hnext ▸ h.acc
  reaches := h.reaches.head hround
  stops := h.stops
  only u hu hstops := by
    rcases hu.cases_head with rfl | ⟨next, hnext, hrest⟩
    · exact absurd hround (hstops t)
    · rw [honly next hnext] at hrest
      exact h.only u hrest hstops

end EndsAt

namespace Store

variable {s : Store} {a c d p x y : NodeId} {ids rest l : List NodeId}

/-! ## Subtrees in depth-first order -/

/-- A statement lists another one as its child. -/
def Lists (s : Store) (p c : NodeId) : Prop := c ∈ s.childrenOf p

/-- A statement lists the children that it holds. -/
theorem lists_iff_of_get? {n : Node} (h : s.get? p = some n) : s.Lists p c ↔ c ∈ n.children := by
  rw [Lists, childrenOf_of_get? h]

/-- `s.DepthFirst ids l`: the list `l` goes through the subtrees of the live statements `ids` one
after the other, and in each from its first statement on through the subtrees of the children, in
their order. -/
inductive DepthFirst (s : Store) : List NodeId → List NodeId → Prop where
  | nil : DepthFirst s [] []
  | cons {x : NodeId} {n : Node} {rest below after : List NodeId} (h : s.get? x = some n)
      (hbelow : DepthFirst s n.children below) (hafter : DepthFirst s rest after) :
      DepthFirst s (x :: rest) (x :: (below ++ after))

namespace DepthFirst

/-- Two rows of subtrees are gone through one after the other. -/
theorem append (h : s.DepthFirst ids l) (h' : s.DepthFirst rest l') :
    s.DepthFirst (ids ++ rest) (l ++ l') := by
  induction h with
  | nil => exact h'
  | cons hn hbelow _ _ ih =>
    rw [List.cons_append, List.cons_append, List.append_assoc]
    exact .cons hn hbelow ih

/-- The order tells the live statements to which chains of children lead. -/
theorem mem_iff (h : s.DepthFirst ids l) : x ∈ l ↔ ∃ a ∈ ids, ReflTransGen s.Lists a x := by
  induction h with
  | nil => simp
  | @cons y n rest below after hn _ _ ihbelow ihafter =>
    have hfirst : ReflTransGen s.Lists y x ↔ x = y ∨ x ∈ below := by
      rw [ReflTransGen.cases_head_iff, ihbelow, eq_comm]
      simp only [lists_iff_of_get? hn]
    rw [List.mem_cons, List.mem_append, ← or_assoc, ← hfirst, ihafter, List.exists_mem_cons_iff]

/-- The subtree of each member is one block of the list. -/
theorem exists_infix (h : s.DepthFirst ids l) (hx : x ∈ l) :
    ∃ n below, s.get? x = some n ∧ s.DepthFirst n.children below ∧ x :: below <:+: l := by
  induction h with
  | nil => cases hx
  | @cons y n rest below after hn hbelow _ ihbelow ihafter =>
    rcases List.mem_cons.mp hx with rfl | hx
    · exact ⟨n, below, hn, hbelow, (List.prefix_append (x :: below) after).isInfix⟩
    rcases List.mem_append.mp hx with hx | hx
    · obtain ⟨m, inner, hm, hinner, hinfix⟩ := ihbelow hx
      exact ⟨m, inner, hm, hinner, hinfix.trans ⟨[y], after, rfl⟩⟩
    · obtain ⟨m, inner, hm, hinner, hinfix⟩ := ihafter hx
      exact ⟨m, inner, hm, hinner, hinfix.trans (List.suffix_append (y :: below) after).isInfix⟩

/-- What stands below an earlier statement comes before what stands below a later one. -/
theorem sublist_of_sublist (h : s.DepthFirst ids l) (hcd : [c, d].Sublist ids)
    (hx : ReflTransGen s.Lists c x) (hy : ReflTransGen s.Lists d y) : [x, y].Sublist l := by
  induction h with
  | nil => cases hcd
  | @cons z n rest below after hn hbelow hafter _ ihafter =>
    rw [← List.cons_append]
    cases hcd with
    | cons _ hcd => exact (ihafter hcd).trans (List.sublist_append_right _ after)
    | cons_cons _ hd =>
      -- the earlier statement is the first one, and the later one is among the others
      have hxmem : x ∈ c :: below := by
        have hfirst := DepthFirst.cons hn hbelow .nil
        rw [List.append_nil] at hfirst
        exact hfirst.mem_iff.mpr ⟨c, List.mem_singleton_self c, hx⟩
      have hymem : y ∈ after := hafter.mem_iff.mpr ⟨d, List.singleton_sublist.mp hd, hy⟩
      exact (List.singleton_sublist.mpr hxmem).append (List.singleton_sublist.mpr hymem)

/-- A statement comes before its children. -/
theorem parent_sublist (h : s.DepthFirst ids l) (hp : p ∈ l) (hc : s.Lists p c) :
    [p, c].Sublist l := by
  obtain ⟨n, below, hn, hbelow, hinfix⟩ := h.exists_infix hp
  have hmem : c ∈ below := hbelow.mem_iff.mpr ⟨c, (lists_iff_of_get? hn).mp hc, .refl⟩
  exact ((List.singleton_sublist.mpr hmem).cons_cons p).trans hinfix.sublist

end DepthFirst

/-! ### The bounded walk -/

/-- A row of steps with a result has succeeded one by one. -/
theorem forall₂_of_mapM_eq_ok {α β ε : Type} {f : α → Except ε β} {items : List α}
    {results : List β} (h : items.mapM f = .ok results) :
    List.Forall₂ (fun a b => f a = .ok b) items results := by
  induction items generalizing results with
  | nil =>
    cases h
    exact .nil
  | cons a items ih =>
    rw [List.mapM_cons] at h
    rcases hb : f a with _ | b
    · rw [hb] at h
      cases h
    rcases hrest : items.mapM f with _ | others
    · rw [hb, hrest] at h
      cases h
    · rw [hb, hrest] at h
      cases h
      exact .cons hb (ih hrest)

/-- Subtrees are gone through one after the other. -/
theorem depthFirst_flatten {lists : List (List NodeId)}
    (h : List.Forall₂ (fun c below => s.DepthFirst [c] below) ids lists) :
    s.DepthFirst ids lists.flatten := by
  induction h with
  | nil => exact .nil
  | cons hc _ ih => exact hc.append ih

/-- Walking down over some levels goes through the subtree. -/
theorem depthFirst_of_descendantsWithin {height : Nat} (h : s.descendantsWithin height a = .ok l) :
    s.DepthFirst [a] l := by
  induction height generalizing a l with
  | zero => cases h
  | succ height ih =>
    rw [descendantsWithin] at h
    rcases hn : s.get? a with _ | n
    · rw [node, hn] at h
      cases h
    rw [node_of_get? hn] at h
    rcases hlists : n.children.mapM (s.descendantsWithin height) with _ | lists
    · simp only [hlists, bind, Except.bind] at h
      cases h
    · simp only [hlists, bind, Except.bind] at h
      cases h
      have hbelow := depthFirst_flatten ((forall₂_of_mapM_eq_ok hlists).imp fun _ _ => ih)
      rw [← List.append_nil lists.flatten]
      exact .cons hn hbelow .nil

/-- In any store, a list of all statements of a subtree has them in depth-first order. -/
theorem depthFirst_of_descendants (h : s.descendants a = .ok l) : s.DepthFirst [a] l :=
  depthFirst_of_descendantsWithin h

/-! ## The walk downwards -/

/-- A walk downwards on its way. -/
structure Descent where
  /-- What waits for its visit, the next one first. -/
  waiting : List NodeId
  /-- What has been visited, the first one first. -/
  visited : List NodeId := []

/-- One round of a walk downwards.  The next statement is visited, and its children wait before all
others.  There is no round when nothing waits, nor when the next number has no statement. -/
inductive Descends (s : Store) : Descent → Descent → Prop where
  | visit {x : NodeId} {n : Node} {rest visited : List NodeId} (h : s.get? x = some n) :
      Descends s ⟨x :: rest, visited⟩ ⟨n.children ++ rest, visited ++ [x]⟩

/-- A round leaves the order of what waits as it was, without the statement that it visits. -/
theorem DepthFirst.exists_descends (h : s.DepthFirst (x :: rest) l) :
    ∃ (n : Node) (l' : List NodeId), l = x :: l' ∧ s.DepthFirst (n.children ++ rest) l' ∧
      ∀ visited t, s.Descends ⟨x :: rest, visited⟩ t ↔
        t = ⟨n.children ++ rest, visited ++ [x]⟩ := by
  cases h with
  | @cons _ n _ below after hn hbelow hafter =>
    refine ⟨n, below ++ after, rfl, hbelow.append hafter, fun visited t => ⟨fun ht => ?_, ?_⟩⟩
    · cases ht with
      | visit hm =>
        rw [hn] at hm
        cases hm
        rfl
    · rintro rfl
      exact .visit hn

/-- A walk ends when it has visited the subtrees of all that waits. -/
theorem DepthFirst.endsAt (h : s.DepthFirst ids l) (visited : List NodeId) :
    EndsAt s.Descends ⟨ids, visited⟩ ⟨[], visited ++ l⟩ := by
  -- each round takes the first statement off the list that is still to come
  induction l generalizing ids visited with
  | nil =>
    cases h
    rw [List.append_nil]
    exact .of_stops fun next hnext => nomatch hnext
  | cons x l ih =>
    rcases ids with _ | ⟨y, rest⟩
    · cases h
    obtain ⟨n, l', hl, hwaiting, hround⟩ := h.exists_descends
    obtain ⟨rfl, rfl⟩ := List.cons.inj hl
    have hend := ih hwaiting (visited ++ [x])
    rw [List.append_assoc] at hend
    exact hend.head ((hround visited _).mpr rfl) fun next => (hround visited next).mp

/-- In any store, a walk downwards ends when it has visited what is listed. -/
theorem endsAt_of_descendants (h : s.descendants a = .ok l) :
    EndsAt s.Descends { waiting := [a] } { waiting := [], visited := l } :=
  (depthFirst_of_descendants h).endsAt []

/-! ## The walk upwards -/

/-- One round of a walk upwards that looks for `a`.  As long as it does not stand there, it goes on
to the parent. -/
def Climbs (s : Store) (a x p : NodeId) : Prop := x ≠ a ∧ s.parentOf x = some p

/-- A walk upwards ends.  It ends at the statement it looks for when it begins below that. -/
theorem Grounded.exists_endsAt (hx : s.Grounded x) (a : NodeId) :
    ∃ y, EndsAt (s.Climbs a) x y ∧ (y = a ↔ s.Below a x) := by
  induction hx with
  | @top x hnone =>
    refine ⟨x, .of_stops fun p hp => ?_, fun heq => heq ▸ .self, fun h => ?_⟩
    · rw [hp.2] at hnone
      cases hnone
    · exact (h.eq_of_parentOf_eq_none hnone).symm
  | @under x p hp _ ih =>
    by_cases hxa : x = a
    · subst hxa
      exact ⟨x, .of_stops fun _ hround => hround.1 rfl, fun _ => .self, fun _ => rfl⟩
    · obtain ⟨y, hend, hy⟩ := ih
      refine ⟨y, hend.head ⟨hxa, hp⟩ fun q hq => ?_, ?_⟩
      · exact Option.some.inj (hq.2.symm.trans hp)
      · rw [hy, below_iff_of_parentOf hp, or_iff_right (Ne.symm hxa)]

namespace Wired

variable (w : s.Wired)

include w

/-- Chains of children are chains of parents, looked at from the other end. -/
theorem reflTransGen_lists_iff : ReflTransGen s.Lists a x ↔ s.Below a x := by
  constructor
  · intro h
    induction h with
    | refl => exact .self
    | tail _ hc ih => exact .under (w.parentOf_of_mem hc) ih
  · intro h
    induction h with
    | self => exact .refl
    | under hp _ ih => exact ih.tail (w.mem_of_parentOf hp)

/-- The test for ancestors is exact for all numbers. -/
theorem isAncestorOrSelf_iff_below : s.isAncestorOrSelf a x = true ↔ s.Below a x := by
  by_cases hx : s.contains x = true
  · exact w.isAncestorOrSelf_iff hx
  · have hnone : s.parentOf x = none := by
      rw [Option.eq_none_iff_forall_ne_some]
      exact fun p hp => hx (contains_of_parentOf hp)
    rw [isAncestorOrSelf, List.contains_iff_mem, ancestors]
    exact mem_chainWithin (.top hnone) (Nat.zero_le _)

end Wired

/-! ## Both walks -/

/-- What walks tell of the subtree of `a`: the one that goes down from `a` lists it as `l`, and
those that go up find `a` from its statements and from no others. -/
structure Traversal (s : Store) (a : NodeId) (l : List NodeId) : Prop where
  descendants : s.descendants a = .ok l
  /-- The walk downwards ends when it has visited what is listed. -/
  descends : EndsAt s.Descends { waiting := [a] } { waiting := [], visited := l }
  mem_iff : ∀ x, x ∈ l ↔ ReflTransGen s.Lists a x
  nodup : l.Nodup
  depthFirst : s.DepthFirst [a] l
  /-- Every statement but the first comes after its parent. -/
  after_parent : ∀ x ∈ l, x ≠ a → ∃ p, s.parentOf x = some p ∧ [p, x].Sublist l
  /-- What is below a child comes before what is below a later child. -/
  siblings_in_order : ∀ p ∈ l, ∀ c d, [c, d].Sublist (s.childrenOf p) →
    ∀ x y, ReflTransGen s.Lists c x → ReflTransGen s.Lists d y → [x, y].Sublist l
  /-- Every walk upwards ends, and the test tells whether it ends at `a`. -/
  climbs : ∀ x, ∃ y, EndsAt (s.Climbs a) x y ∧ s.isAncestorOrSelf a x = decide (y = a)
  isAncestorOrSelf_iff : ∀ x, s.isAncestorOrSelf a x = true ↔ x ∈ l

/-- In a store that satisfies the invariant, all walks from a live statement and towards it come to
an end and agree. -/
theorem Owned.walks_agree (o : s.Owned) (ha : s.contains a = true) : ∃ l, s.Traversal a l := by
  have hlist := o.wired.descendants_eq ha
  have horder := depthFirst_of_descendants hlist
  have hmem : ∀ x, x ∈ s.subtree a ↔ ReflTransGen s.Lists a x := by simp [horder.mem_iff]
  refine ⟨s.subtree a, hlist, endsAt_of_descendants hlist, hmem, o.wired.nodup_subtree ha, horder,
    ?_, ?_, ?_, ?_⟩
  · intro x hx hne
    rcases ((hmem x).mp hx).cases_tail with heq | ⟨p, hap, hpx⟩
    · exact absurd heq hne
    · exact ⟨p, o.wired.parentOf_of_mem hpx, horder.parent_sublist ((hmem p).mpr hap) hpx⟩
  · intro p hp c d hcd x y hx hy
    obtain ⟨n, below, hn, hbelow, hinfix⟩ := horder.exists_infix hp
    rw [childrenOf_of_get? hn] at hcd
    have hbefore := hbelow.sublist_of_sublist hcd hx hy
    exact (hbefore.cons p).trans hinfix.sublist
  · intro x
    obtain ⟨y, hend, hy⟩ := (o.wired.grounded x).exists_endsAt a
    refine ⟨y, hend, ?_⟩
    rw [Bool.eq_iff_iff, decide_eq_true_iff, hy, o.wired.isAncestorOrSelf_iff_below]
  · intro x
    rw [o.wired.isAncestorOrSelf_iff_below, hmem, o.wired.reflTransGen_lists_iff]

/-- Three modules of which the first has been given the leaves of the others: one as its first
child, and one below that. -/
def gatheredLeaves : Store :=
  let s := (sampleModule.absorb sampleModule).absorb sampleModule
  let s := ((Mutation.addChild ⟨0⟩ ⟨3⟩ (some 0)).perform s).2
  ((Mutation.addChild ⟨3⟩ ⟨5⟩ none).perform s).2

/-- The sample store can be reached by operations. -/
theorem reachable_gatheredLeaves : Reachable gatheredLeaves :=
  ((reachable_sampleModule.absorb reachable_sampleModule).absorb reachable_sampleModule).change _
    |>.change _

/-- The statements are listed by their places and not by their numbers, and another module is not
among them. -/
theorem Owned.walks_agree_gatheredLeaves :
    gatheredLeaves.Owned ∧ gatheredLeaves.contains ⟨0⟩ = true ∧
      gatheredLeaves.Traversal ⟨0⟩ [⟨0⟩, ⟨3⟩, ⟨5⟩, ⟨1⟩] ∧
      gatheredLeaves.isAncestorOrSelf ⟨0⟩ ⟨5⟩ = true ∧
      gatheredLeaves.isAncestorOrSelf ⟨0⟩ ⟨2⟩ = false := by
  have o := reachable_gatheredLeaves.owned
  have hlive : gatheredLeaves.contains ⟨0⟩ = true := by decide +kernel
  obtain ⟨l, h⟩ := walks_agree o hlive
  have hlist : gatheredLeaves.descendants ⟨0⟩ = .ok [⟨0⟩, ⟨3⟩, ⟨5⟩, ⟨1⟩] := by decide +kernel
  obtain rfl : l = [⟨0⟩, ⟨3⟩, ⟨5⟩, ⟨1⟩] := Except.ok.inj (h.descendants.symm.trans hlist)
  refine ⟨o, hlive, h, (h.isAncestorOrSelf_iff _).mpr (by decide), ?_⟩
  rw [← Bool.not_eq_true, h.isAncestorOrSelf_iff]
  decide

end Store
end StatementForest
