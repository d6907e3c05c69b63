import Mathlib.Data.Fintype.EquivFin
import Mathlib.Data.Fintype.Sets
import Mathlib.Data.List.Chain
import StatementForest.Proofs.Identity.DerivationCycles

/-!
# When the list of a cycle can be walked

The list of a cycle is a component in the order in which the search leaves it.  Every identity of
it but the last, before the repetition, has a base later in the list, which need not be the next
one.  It is the next one, and the list is a walk from derived identities to their bases and back
to its start, when the component is a ring: when no identity has two bases among the others, or
when no identity has two derivatives among them.

Main results:

- Theorem `Digraph.IsComponent.isChain`: when a component is walked in the order of the search.
- Theorem `IdentityCollection.freeze_listsCycles`: what holds of the list of every cycle.
- Theorem `IdentityCollection.knotIdentities_not_walked`: a list that is no walk.

Current gaps:

- Of a component that is no ring it is not stated whether some other order of it is a walk.
-/

namespace StatementForest

open Relation (ReflTransGen TransGen)

/-- No element of a list is related to two others of it. -/
def Branchless {α : Type} (R : α → α → Prop) (l : List α) : Prop :=
  ∀ v ∈ l, ∀ w ∈ l, ∀ w' ∈ l, w ≠ v → w' ≠ v → R v w → R v w' → w = w'

/-! ## Components without forks -/

namespace Digraph

variable {g : Digraph} {u v w : Nat} {above earlier l c : List Nat}

/-- An edge leads to every node that hangs below others, from one of these or a node before it. -/
theorem LinkedFrom.exists_link {later : List Nat} (h : g.LinkedFrom above (l ++ v :: later)) :
    ∃ u ∈ above ++ l, g.Links u v := by
  induction l generalizing above with
  | nil => simpa using h.1
  | cons w rest ih =>
    obtain ⟨u, hu, hlink⟩ := ih h.2
    exact ⟨u, by simpa [or_left_comm] using hu, hlink⟩

/-- Without forks, the edge to a node comes from the one right before it: every earlier node has
an edge to another node already. -/
theorem LinkedFrom.isChain (h : g.LinkedFrom (v :: earlier) l) (hnodup : (l ++ v :: earlier).Nodup)
    (hsub : l ++ v :: earlier ⊆ c) (hunforked : Branchless g.Links c)
    (hused : ∀ u ∈ earlier, ∃ w ∈ v :: earlier, w ≠ u ∧ g.Links u w) :
    (v :: l).IsChain g.Links := by
  induction l generalizing v earlier with
  | nil => exact .singleton v
  | cons w rest ih =>
    obtain ⟨⟨u, hu, hlink⟩, hrest⟩ := h
    have hw : w ∉ v :: earlier := by
      simp only [List.cons_append, List.nodup_cons, List.mem_append, not_or] at hnodup
      exact hnodup.1.2
    have hmem : ∀ {x}, x ∈ v :: earlier → x ∈ c := fun hx => hsub (by simp [List.mem_cons.mp hx])
    have hwc : w ∈ c := hsub (by simp)
    have huv : u = v := by
      refine (List.mem_cons.mp hu).resolve_right fun hu' => ?_
      obtain ⟨x, hx, hxu, hlink'⟩ := hused u hu'
      have heq := hunforked u (hmem hu) x (hmem hx) w hwc hxu (fun h => hw (h ▸ hu)) hlink' hlink
      exact hw (heq ▸ hx)
    subst huv
    have hperm : (rest ++ w :: u :: earlier).Perm (w :: rest ++ u :: earlier) := List.perm_middle
    refine .cons_cons hlink (ih hrest (hperm.nodup_iff.mpr hnodup)
      (fun x hx => hsub (hperm.mem_iff.mp hx)) fun x hx => ?_)
    obtain rfl | hx := List.mem_cons.mp hx
    · exact ⟨w, List.mem_cons_self, fun h => hw (h ▸ hu), hlink⟩
    · obtain ⟨y, hy, hne, hlink'⟩ := hused x hx
      exact ⟨y, List.mem_cons_of_mem w hy, hne, hlink'⟩

/-- Every node of a walk but its last one has an edge to another node after the first. -/
theorem getLast?_or_exists_link (hchain : (v :: l).IsChain g.Links) (hnodup : (v :: l).Nodup)
    (hw : w ∈ v :: l) : (v :: l).getLast? = some w ∨ ∃ u ∈ l, u ≠ w ∧ g.Links w u := by
  induction l generalizing v with
  | nil => simp [List.mem_singleton.mp hw]
  | cons u rest ih =>
    obtain ⟨hlink, hrest⟩ := List.isChain_cons_cons.mp hchain
    obtain ⟨hv, hnodup⟩ := List.nodup_cons.mp hnodup
    obtain rfl | hw := List.mem_cons.mp hw
    · exact .inr ⟨u, List.mem_cons_self, fun h => hv (h ▸ List.mem_cons_self), hlink⟩
    · rw [List.getLast?_cons_cons]
      refine (ih hrest hnodup hw).imp_right ?_
      rintro ⟨x, hx, hne, hlink⟩
      exact ⟨x, List.mem_cons_of_mem u hx, hne, hlink⟩

namespace IsComponent

/-- In a component of more than one node, every node has an edge to another one. -/
theorem exists_successor (h : g.IsComponent c) (hv : v ∈ c) (hu : u ∈ c) (hne : u ≠ v) :
    ∃ w ∈ c, w ≠ v ∧ g.Links v w := by
  obtain ⟨hpath, hback⟩ := (h.mem_iff v hv u).mp hu
  induction hpath using ReflTransGen.head_induction_on with
  | refl => exact absurd rfl hne
  | @head v w hlink hrest ih =>
    by_cases hwv : w = v
    · subst hwv
      exact ih hv hne hback
    · exact ⟨w, (h.mem_iff v hv w).mpr ⟨.single hlink, hrest.trans hback⟩, hwv, hlink⟩

/-- In a component of more than one node, every node has an edge from another one. -/
theorem exists_predecessor (h : g.IsComponent c) (hv : v ∈ c) (hu : u ∈ c) (hne : u ≠ v) :
    ∃ w ∈ c, w ≠ v ∧ g.Links w v := by
  obtain ⟨hback, hpath⟩ := (h.mem_iff v hv u).mp hu
  induction hpath with
  | refl => exact absurd rfl hne
  | @tail w v hrest hlink ih =>
    by_cases hwv : w = v
    · subst hwv
      exact ih hv hne hback
    · exact ⟨w, (h.mem_iff v hv w).mpr ⟨hback.trans hrest, .single hlink⟩, hwv, hlink⟩

/-- Without merges there are no forks.  Every node is the source of the only edge to some other
node; if one were the source for two, another would be left without a target. -/
theorem unforked (h : g.IsComponent c) (hunmerged : Branchless (fun w v => g.Links v w) c) :
    Branchless g.Links c := by
  intro v hv w hw w' hw' hwv hwv' hlink hlink'
  have hother : ∀ x ∈ c, ∃ y ∈ c, y ≠ x := by
    intro x hx
    by_cases hxv : x = v
    · exact ⟨w, hw, hxv ▸ hwv⟩
    · exact ⟨v, hv, Ne.symm hxv⟩
  have hsource : ∀ x : { x // x ∈ c }, ∃ y : { x // x ∈ c }, y.1 ≠ x.1 ∧ g.Links y.1 x.1 := by
    rintro ⟨x, hx⟩
    obtain ⟨y, hy, hne⟩ := hother x hx
    obtain ⟨z, hz, hzx, hedge⟩ := h.exists_predecessor hx hy hne
    exact ⟨⟨z, hz⟩, hzx, hedge⟩
  choose source hne hedge using hsource
  have hunique : ∀ x y : { x // x ∈ c }, y.1 ≠ x.1 → g.Links y.1 x.1 → source x = y :=
    fun x y hyx hlink => Subtype.ext
      (hunmerged x.1 x.2 (source x).1 (source x).2 y.1 y.2 (hne x) hyx (hedge x) hlink)
  have hsurjective : Function.Surjective source := by
    rintro ⟨x, hx⟩
    obtain ⟨y, hy, hyx⟩ := hother x hx
    obtain ⟨z, hz, hzx, hlink⟩ := h.exists_successor hx hy hyx
    exact ⟨⟨z, hz⟩, hunique ⟨z, hz⟩ ⟨x, hx⟩ (Ne.symm hzx) hlink⟩
  have hinjective := Finite.injective_iff_surjective.mpr hsurjective
  have heq : source ⟨w, hw⟩ = source ⟨w', hw'⟩ :=
    (hunique ⟨w, hw⟩ ⟨v, hv⟩ (Ne.symm hwv) hlink).trans
      (hunique ⟨w', hw'⟩ ⟨v, hv⟩ (Ne.symm hwv') hlink').symm
  exact congrArg Subtype.val (hinjective heq)

/-- Without forks a component is walked in its order, from the target of an edge to its source, and
back to its first node. -/
theorem isChain (h : g.IsComponent c) (hcyclic : g.isCyclic c = true)
    (hunforked : Branchless g.Links c) : (c ++ c.take 1).IsChain fun w v => g.Links v w := by
  obtain ⟨root, members, hc, hhangs⟩ := h.exists_root
  have hreverse : c.reverse = root :: members := by simp [hc]
  have hmem : ∀ u, u ∈ root :: members ↔ u ∈ c := fun u => by rw [← hreverse, List.mem_reverse]
  have hnodup : (root :: members).Nodup := by rw [← hreverse]; exact List.nodup_reverse.mpr h.nodup
  have hperm : (members ++ [root]).Perm (root :: members) := List.perm_append_singleton root members
  have hchain : (root :: members).IsChain g.Links :=
    hhangs.isChain (hperm.nodup_iff.mpr hnodup)
      (fun u hu => (hmem u).mp (hperm.mem_iff.mp hu)) hunforked (by simp)
  obtain ⟨first, rest, hfirst⟩ := List.exists_cons_of_ne_nil h.ne_nil
  have hlast : (root :: members).getLast? = some first := by simp [← hreverse, hfirst]
  have hroot : root ∈ c := (hmem root).mp List.mem_cons_self
  -- the first node is the only one that can have an edge to the root
  have hclosing : g.Links first root := by
    rcases members with _ | ⟨u, members⟩
    · obtain rfl : root = first := by simpa using hlast
      have hsingle : c = [root] := by simpa using hc
      rw [hsingle, isCyclic, List.contains_iff_mem] at hcyclic
      exact hcyclic
    have hne : u ≠ root := fun heq => (List.nodup_cons.mp hnodup).1 (by simp [heq])
    obtain ⟨w, hw, hwroot, hlink⟩ := h.exists_predecessor hroot ((hmem u).mp (by simp)) hne
    obtain hw' | ⟨x, hx, hxw, hlink'⟩ := getLast?_or_exists_link hchain hnodup ((hmem w).mpr hw)
    · rwa [Option.some.inj (hlast.symm.trans hw')]
    · have heq := hunforked w hw root hroot x ((hmem x).mp (List.mem_cons_of_mem root hx))
        (Ne.symm hwroot) hxw hlink hlink'
      exact absurd (heq ▸ hx) (List.nodup_cons.mp hnodup).1
  have hwalk : (c ++ c.take 1).reverse = first :: root :: members := by
    simp [← hreverse, hfirst]
  have hall : (c ++ c.take 1).reverse.IsChain g.Links := by
    rw [hwalk]
    exact .cons_cons hclosing hchain
  exact List.isChain_reverse.mp hall

/-- An edge leads to every node of a component but the last one, from a later one. -/
theorem exists_link_of_append (h : g.IsComponent c) {before after : List Nat}
    (hc : c = before ++ v :: after) (hafter : after ≠ []) : ∃ u ∈ after, g.Links u v := by
  obtain ⟨root, members, hroot, hhangs⟩ := h.exists_root
  have hreverse : root :: members = after.reverse ++ v :: before.reverse := by
    rw [hroot] at hc
    simpa using congrArg List.reverse hc
  obtain ⟨u, later, hlater⟩ := List.exists_cons_of_ne_nil (List.reverse_ne_nil_iff.mpr hafter)
  rw [hlater, List.cons_append, List.cons.injEq] at hreverse
  obtain ⟨rfl, rfl⟩ := hreverse
  obtain ⟨u, hu, hlink⟩ := hhangs.exists_link
  exact ⟨u, by rwa [← List.mem_reverse, hlater], hlink⟩

end IsComponent
end Digraph

/-! ## The lists of a registry -/

namespace IdentityRegistry

variable {r : IdentityRegistry} {cycle : List GlobalName} {positions c : List Nat}

/-- A list leads from derived identities to their bases. -/
def IsWalk (r : IdentityRegistry) (cycle : List GlobalName) : Prop :=
  cycle.IsChain fun derived base => r.Edge base derived

/-- What holds of the list of a cycle. -/
structure ListsCycle (r : IdentityRegistry) (cycle : List GlobalName) : Prop where
  /-- All identities of the list are derived from each other. -/
  mutuallyDerived : ∀ x ∈ cycle, ∀ y ∈ cycle, TransGen r.Edge x y
  /-- Every identity but the last one, before the repetition, has a base later in the list. -/
  based : ∀ before d after, cycle.dropLast = before ++ d :: after → after ≠ [] →
    ∃ b ∈ after, r.Edge b d
  /-- The list leads from each identity to a base of it, and back to the first one, when no
  identity of the cycle has two derivatives, or none has two bases, among the others. -/
  walked : Branchless r.Edge cycle ∨ Branchless (fun derived base => r.Edge base derived) cycle →
    r.IsWalk cycle

namespace Sound

/-- A walk of positions is a walk of identities. -/
theorem isWalk_identitiesAt (h : r.Sound)
    (hchain : positions.IsChain fun w v => r.graph.Links v w) :
    r.IsWalk (r.identitiesAt positions) := by
  have hcons : ∀ {i x} rest, r.position? x = some i →
      r.identitiesAt (i :: rest) = x :: r.identitiesAt rest := by
    intro i x rest hx
    obtain ⟨e, he, rfl⟩ := h.position?_eq_some_iff.mp hx
    simp [identitiesAt, he]
  induction hchain with
  | nil => exact .nil
  | singleton i =>
    rcases he : r.entries[i]? with _ | e <;> simp [IsWalk, identitiesAt, he]
  | @cons_cons i j rest hlink hrest ih =>
    obtain ⟨y, hy⟩ := h.exists_position (h.bounded j i hlink).1
    obtain ⟨x, hx⟩ := h.exists_position (h.bounded j i hlink).2
    rw [hcons _ hy] at ih
    rw [hcons _ hx, hcons _ hy]
    exact .cons_cons ⟨j, i, hy, hx, hlink⟩ ih

/-- Identities that are not related to two others have positions that are not. -/
theorem branchless (h : r.Sound) {R : GlobalName → GlobalName → Prop} {S : Nat → Nat → Prop}
    (hsome : ∀ i j, S i j → ∃ x y, r.position? x = some i ∧ r.position? y = some j ∧ R x y)
    (hbranchless : Branchless R (r.identitiesAt (c ++ c.take 1))) : Branchless S c := by
  intro i hi j hj k hk hji hki hij hik
  obtain ⟨x, y, hx, hy, hxy⟩ := hsome i j hij
  obtain ⟨x', z, hx', hz, hxz⟩ := hsome i k hik
  obtain rfl := h.position?_inj hx hx'
  have hne : ∀ {l w}, r.position? w = some l → l ≠ i → w ≠ x := by
    rintro l w hw hl rfl
    exact hl (Option.some.inj (hw.symm.trans hx))
  have heq := hbranchless x (h.mem_cycle_iff.mpr ⟨i, hi, hx⟩) y (h.mem_cycle_iff.mpr ⟨j, hj, hy⟩)
    z (h.mem_cycle_iff.mpr ⟨k, hk, hz⟩) (hne hy hji) (hne hz hki) hxy hxz
  exact Option.some.inj (hy.symm.trans (heq ▸ hz))

/-- Identities with one derivative each do not branch. -/
theorem branchless_of_derivatives (h : r.Sound)
    (hle : ∀ b ∈ cycle, (r.derivatives b).length ≤ 1) : Branchless r.Edge cycle := by
  intro b hb d _ d' _ _ _ hd hd'
  rw [← h.mem_derivatives_iff] at hd hd'
  have hone := hle b hb
  match hlist : r.derivatives b with
  | [] => simp [hlist] at hd
  | [x] =>
    rw [hlist, List.mem_singleton] at hd hd'
    rw [hd, hd']
  | x :: y :: rest => simp [hlist] at hone

/-- The list of a cyclic component is walked when its identities do not branch. -/
theorem isWalk_of_branchless (h : r.Sound) (hc : c ∈ r.graph.cyclicComponents)
    (hbranchless : Branchless r.Edge (r.identitiesAt (c ++ c.take 1)) ∨
      Branchless (fun d b => r.Edge b d) (r.identitiesAt (c ++ c.take 1))) :
    r.IsWalk (r.identitiesAt (c ++ c.take 1)) := by
  have hcomponent := Digraph.isComponent_of_mem_cyclic h.bounded hc
  have hedge : ∀ i j, r.graph.Links i j →
      ∃ x y, r.position? x = some i ∧ r.position? y = some j ∧ r.Edge x y := by
    intro i j hlink
    obtain ⟨x, hx⟩ := h.exists_position (h.bounded i j hlink).1
    obtain ⟨y, hy⟩ := h.exists_position (h.bounded i j hlink).2
    exact ⟨x, y, hx, hy, i, j, hx, hy, hlink⟩
  refine h.isWalk_identitiesAt (hcomponent.isChain (List.mem_filter.mp hc).2 ?_)
  obtain hsingle | hsingle := hbranchless
  · exact h.branchless hedge hsingle
  · refine hcomponent.unforked (h.branchless (fun j i hlink => ?_) hsingle)
    obtain ⟨x, y, hx, hy, hxy⟩ := hedge i j hlink
    exact ⟨y, x, hy, hx, hxy⟩

/-- Every identity of a cyclic component but the last one has a base later in it. -/
theorem exists_edge_of_append (h : r.Sound) (hc : c ∈ r.graph.cyclicComponents)
    {before after : List GlobalName} {d : GlobalName}
    (hlist : r.identitiesAt c = before ++ d :: after) (hafter : after ≠ []) :
    ∃ b ∈ after, r.Edge b d := by
  obtain ⟨earlier, later, rfl, -, hlater⟩ := List.filterMap_eq_append_iff.mp hlist
  obtain ⟨skipped, i, rest, rfl, -, hi, rfl⟩ := List.filterMap_eq_cons_iff.mp hlater
  have hrest : rest ≠ [] := by
    rintro rfl
    exact hafter rfl
  have hcomponent := Digraph.isComponent_of_mem_cyclic h.bounded hc
  obtain ⟨j, hj, hlink⟩ := hcomponent.exists_link_of_append (List.append_assoc _ _ _).symm hrest
  obtain ⟨b, hb⟩ := h.exists_position (h.bounded j i hlink).1
  refine ⟨b, h.mem_identitiesAt_iff.mpr ⟨j, hj, hb⟩, j, i, hb, ?_, hlink⟩
  exact h.position?_eq_some_iff.mpr (by simpa using hi)

/-- The list of a cycle is the order in which the search left its component. -/
theorem listsCycle (h : r.Sound) (hcycle : cycle ∈ r.cycles) : r.ListsCycle cycle := by
  obtain ⟨c, hc, rfl⟩ := mem_cycles_iff.mp hcycle
  obtain ⟨first, rest, hlist, heq⟩ := h.identitiesAt_cycle hc
  refine ⟨fun x hx y hy => ?_, fun before d after hsplit hafter => ?_,
    h.isWalk_of_branchless hc⟩
  · exact (h.exists_cycle_iff.mp ⟨_, hcycle, hx, hy⟩).1
  · rw [heq, List.dropLast_concat, ← hlist] at hsplit
    exact h.exists_edge_of_append hc hsplit hafter

end Sound
end IdentityRegistry

namespace IdentityCollection

open IdentityRegistry

/-- Whatever entries are taken in, the list of a cycle leads from an identity to bases of it that
come later, and is a walk when the cycle has no branches. -/
theorem freeze_listsCycles (entries : List IdentityEntry) {cycle : List GlobalName}
    (hcycle : cycle ∈ (ofEntries entries).freeze.cycles) :
    (ofEntries entries).freeze.ListsCycle cycle :=
  (keyed_ofEntries entries).sound.listsCycle hcycle

/-- The name of an identity of the module `m`. -/
def sampleName (name : String) : GlobalName := ⟨"urn:m", "m", name⟩

/-- Three identities in a ring. -/
def ringIdentities : List IdentityEntry :=
  [sampleEntry "a" ["b"], sampleEntry "b" ["c"], sampleEntry "c" ["a"]]

/-- The list of the ring is a walk, as each identity has one derivative. -/
theorem freeze_listsCycles_ringIdentities :
    ["b", "c", "a", "b"].map sampleName ∈ (ofEntries ringIdentities).freeze.cycles ∧
      (ofEntries ringIdentities).freeze.ListsCycle (["b", "c", "a", "b"].map sampleName) ∧
      (ofEntries ringIdentities).freeze.IsWalk (["b", "c", "a", "b"].map sampleName) := by
  have hcycles : (ofEntries ringIdentities).freeze.cycles =
      [["b", "c", "a", "b"].map sampleName] := by
    cbv
  have hcycle := hcycles ▸ List.mem_singleton_self (["b", "c", "a", "b"].map sampleName)
  have hcirculates := freeze_listsCycles ringIdentities hcycle
  have hlengths : (["b", "c", "a", "b"].map sampleName).map
      (fun b => ((ofEntries ringIdentities).freeze.derivatives b).length) = [1, 1, 1, 1] := by
    cbv
  refine ⟨hcycle, hcirculates, hcirculates.walked (.inl ?_)⟩
  refine (keyed_ofEntries ringIdentities).sound.branchless_of_derivatives fun b hb => ?_
  have hone := List.mem_map_of_mem hb (f := fun b =>
    ((ofEntries ringIdentities).freeze.derivatives b).length)
  rw [hlengths] at hone
  exact Nat.le_of_eq (by simpa using hone)

/-- Four identities with more than one way round. -/
def knotIdentities : List IdentityEntry :=
  [sampleEntry "a" ["d"], sampleEntry "b" ["a", "d"], sampleEntry "c" ["b", "a"],
    sampleEntry "d" ["c"]]

/-- The list of the knot leads neither from derived identities to their bases nor back. -/
theorem knotIdentities_not_walked : ¬ ∀ entries, ∀ cycle ∈ (ofEntries entries).freeze.cycles,
    cycle.IsChain (fun derived base => (ofEntries entries).freeze.Edge base derived) ∨
      cycle.IsChain (fun base derived => (ofEntries entries).freeze.Edge base derived) := by
  intro hwalk
  have hcycles : (ofEntries knotIdentities).freeze.cycles =
      [["b", "d", "c", "a", "b"].map sampleName] := by
    cbv
  have hcycle := hcycles ▸ List.mem_singleton_self (["b", "d", "c", "a", "b"].map sampleName)
  have hderivatives : (ofEntries knotIdentities).freeze.derivatives (sampleName "b") =
      [sampleName "c"] := by
    cbv
  have honly : ∀ d, (ofEntries knotIdentities).freeze.Edge (sampleName "b") d →
      d = sampleName "c" := by
    intro d hedge
    have hmem := (keyed_ofEntries knotIdentities).sound.mem_derivatives_iff.mpr hedge
    rw [hderivatives] at hmem
    exact List.mem_singleton.mp hmem
  obtain hchain | hchain := hwalk knotIdentities _ hcycle
  · simp only [List.map_cons, List.isChain_cons_cons] at hchain
    have heq := honly _ hchain.2.2.2.1
    simp [sampleName] at heq
  · simp only [List.map_cons, List.isChain_cons_cons] at hchain
    have heq := honly _ hchain.1
    simp [sampleName] at heq

end IdentityCollection
end StatementForest
