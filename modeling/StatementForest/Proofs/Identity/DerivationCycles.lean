import Mathlib.Data.List.Permutation
import StatementForest.Proofs.Schema.DefinitionCollection
import StatementForest.Proofs.Graph.Components
import StatementForest.Proofs.Identity.GraphPositions

/-!
# Cycles of derivation

The identities that are derived from themselves fall into groups, in each of which all are derived
from each other.  The registry of any entries, whatever their bases, tells of every group by one
list, which ends with its first identity again, and by one finding.

Main results:

- Theorem `IdentityCollection.Keyed.sound`: a key stands for one identity.
- Theorem `IdentityCollection.freeze_reportsCycles`: what the cycles of a registry, the test for
  them and the findings about them tell.

Current gaps:

- A group of identities is reported once, even if it contains several cycles.  These are not
  listed one by one.
-/

namespace StatementForest

open Relation (ReflTransGen TransGen)

/-! ## Registries of any entries -/

namespace IdentityCollection

/-- The collection of some entries, each of which takes the place of an earlier one with its
key. -/
def ofEntries (entries : List IdentityEntry) : IdentityCollection := entries.foldl insert {}

/-- A collection of entries is a roll that is written from nothing. -/
theorem ofEntries_eq (entries : List IdentityEntry) :
    ofEntries entries = ⟨Roll.ofItems (entries.map fun e => (e.identity.key, e))⟩ := by
  have hinsert : ∀ c : IdentityCollection, entries.foldl insert c =
      ⟨c.entries.writeAll (entries.map fun e => (e.identity.key, e))⟩ := by
    induction entries with
    | nil => exact fun _ => rfl
    | cons e rest ih => exact fun c => ih (c.insert e)
  exact hinsert {}

/-- A tree adds its identities under their own keys. -/
theorem own_of_mem_items {s : Store} {q : RootId} {item : Key × IdentityEntry}
    (h : item ∈ items s q) : item.2.identity.key = item.1 := by
  obtain ⟨d, -, rfl⟩ := List.mem_map.mp h
  rfl

/-- Each entry stands under its own key, and none under that of another. -/
structure Keyed (c : IdentityCollection) : Prop where
  nodup : c.entries.keys.Nodup
  own : ∀ e ∈ c.entries.entries, e.2.identity.key = e.1

/-- Entries that are written under their own keys are found there. -/
theorem keyed_ofItems {items : List (Key × IdentityEntry)}
    (h : ∀ e ∈ items, e.2.identity.key = e.1) : Keyed ⟨Roll.ofItems items⟩ :=
  ⟨Roll.nodup_keys_ofItems items, fun e he => h e (Roll.mem_of_mem_ofItems he)⟩

/-- The entries of a collection are found under their own keys. -/
theorem keyed_ofEntries (entries : List IdentityEntry) : (ofEntries entries).Keyed := by
  rw [ofEntries_eq]
  refine keyed_ofItems fun item hitem => ?_
  obtain ⟨e, -, rfl⟩ := List.mem_map.mp hitem
  rfl

/-- A registry keeps the entries that were not replaced. -/
theorem perm_entries_freeze (c : IdentityCollection) : c.freeze.entries.Perm c.entries.values :=
  List.mergeSort_perm _ _

/-- In the registry a module and a name stand for one identity. -/
theorem Keyed.sound {c : IdentityCollection} (h : c.Keyed) : c.freeze.Sound := by
  refine IdentityRegistry.sound_ofSorted
    (((perm_entries_freeze c).map (·.identity.key)).nodup_iff.mpr ?_)
  have hkeys : c.entries.values.map (·.identity.key) = c.entries.keys := by
    rw [Roll.values, Roll.keys, List.map_map]
    exact List.map_congr_left h.own
  rw [hkeys]
  exact h.nodup

end IdentityCollection

/-! ## Positions and identities on a cycle -/

namespace IdentityRegistry

variable {r : IdentityRegistry} {x y : GlobalName} {i : Nat} {positions positions' : List Nat}
  {cycle : List GlobalName}

namespace Sound

/-- The identities at some positions are those that have one of them. -/
theorem mem_identitiesAt_iff (h : r.Sound) :
    x ∈ r.identitiesAt positions ↔ ∃ i ∈ positions, r.position? x = some i := by
  simp only [identitiesAt, List.mem_filterMap, Option.map_eq_some_iff, h.position?_eq_some_iff]

/-- Different positions are those of different identities. -/
theorem nodup_identitiesAt (h : r.Sound) (hnodup : positions.Nodup) :
    (r.identitiesAt positions).Nodup := by
  refine hnodup.filterMap fun i j x hi hj => ?_
  have hx : r.position? x = some i := h.position?_eq_some_iff.mpr (by simpa using hi)
  have hx' : r.position? x = some j := h.position?_eq_some_iff.mpr (by simpa using hj)
  exact Option.some.inj (hx.symm.trans hx')

/-- Paths of one or more edges are paths of one or more steps. -/
theorem transGen_edge_iff (h : r.Sound) (hx : r.position? x = some i) :
    TransGen r.Edge x y ↔ ∃ j, r.position? y = some j ∧ TransGen r.graph.Links i j := by
  simp only [Relation.TransGen.tail'_iff, ← h.linked_iff hx]
  constructor
  · rintro ⟨z, ⟨k, hz, hpath⟩, ⟨k', j, hz', hy, hlink⟩⟩
    obtain rfl : k = k' := Option.some.inj (hz.symm.trans hz')
    exact ⟨j, hy, k, hpath, hlink⟩
  · rintro ⟨j, hy, k, hpath, hlink⟩
    obtain ⟨z, hz⟩ := h.exists_position (h.bounded _ _ hlink).1
    exact ⟨z, ⟨k, hz, hpath⟩, k, j, hz, hy, hlink⟩

end Sound

/-- Positions and more positions have identities and more identities. -/
theorem identitiesAt_append (positions positions' : List Nat) :
    r.identitiesAt (positions ++ positions') =
      r.identitiesAt positions ++ r.identitiesAt positions' :=
  List.filterMap_append

/-- Both are derived from the other, by any number of steps but none. -/
def MutuallyDerived (r : IdentityRegistry) (x y : GlobalName) : Prop :=
  TransGen r.Edge x y ∧ TransGen r.Edge y x

/-- An identity that is derived in a circle is registered. -/
theorem MutuallyDerived.exists_position (h : r.MutuallyDerived x y) :
    ∃ i, r.position? x = some i := by
  obtain ⟨z, ⟨i, j, hx, -, -⟩, -⟩ := Relation.TransGen.head'_iff.mp h.1
  exact ⟨i, hx⟩

/-- Positions lead to each other when their identities are derived from each other. -/
theorem Sound.mutuallyDerived_iff (h : r.Sound) {j : Nat} (hx : r.position? x = some i)
    (hy : r.position? y = some j) :
    r.MutuallyDerived x y ↔ TransGen r.graph.Links i j ∧ TransGen r.graph.Links j i := by
  rw [MutuallyDerived, h.transGen_edge_iff hx, h.transGen_edge_iff hy]
  simp [hx, hy]

/-! ## The list of a cycle -/

/-- A cycle is the identities of a cyclic component, the first of them once more at the end. -/
theorem mem_cycles_iff : cycle ∈ r.cycles ↔
    ∃ c ∈ r.graph.cyclicComponents, r.identitiesAt (c ++ c.take 1) = cycle := List.mem_map

/-- The list of a cycle names the identities at its positions. -/
theorem Sound.mem_cycle_iff (h : r.Sound) {c : List Nat} :
    x ∈ r.identitiesAt (c ++ c.take 1) ↔ ∃ i ∈ c, r.position? x = some i := by
  rw [identitiesAt_append, List.mem_append, h.mem_identitiesAt_iff, h.mem_identitiesAt_iff]
  constructor
  · rintro (hx | ⟨i, hi, hx⟩)
    · exact hx
    · exact ⟨i, List.mem_of_mem_take hi, hx⟩
  · exact .inl

/-- Two identities are in one cycle when each is derived from the other. -/
theorem Sound.exists_cycle_iff (h : r.Sound) :
    (∃ cycle ∈ r.cycles, x ∈ cycle ∧ y ∈ cycle) ↔ r.MutuallyDerived x y := by
  constructor
  · rintro ⟨_, hcycle, hx, hy⟩
    obtain ⟨c, hc, rfl⟩ := mem_cycles_iff.mp hcycle
    obtain ⟨i, hi, hx⟩ := h.mem_cycle_iff.mp hx
    obtain ⟨j, hj, hy⟩ := h.mem_cycle_iff.mp hy
    exact (h.mutuallyDerived_iff hx hy).mpr
      ((Digraph.mem_cyclicComponent_iff h.bounded hc hi).mp hj)
  · intro hxy
    obtain ⟨i, hx⟩ := hxy.exists_position
    obtain ⟨j, hy⟩ := MutuallyDerived.exists_position ⟨hxy.2, hxy.1⟩
    obtain ⟨c, hc, hi, hj⟩ :=
      (Digraph.exists_cyclicComponent_iff h.bounded).mpr ((h.mutuallyDerived_iff hx hy).mp hxy)
    exact ⟨_, mem_cycles_iff.mpr ⟨c, hc, rfl⟩, h.mem_cycle_iff.mpr ⟨i, hi, hx⟩,
      h.mem_cycle_iff.mpr ⟨j, hj, hy⟩⟩

/-- No identity is in two cycles. -/
theorem Sound.pairwise_disjoint_cycles (h : r.Sound) : r.cycles.Pairwise List.Disjoint := by
  rw [cycles, List.pairwise_map]
  refine (Digraph.pairwise_disjoint_cyclicComponents h.bounded).imp fun hdisjoint x hx hx' => ?_
  obtain ⟨i, hi, hx⟩ := h.mem_cycle_iff.mp hx
  obtain ⟨j, hj, hx'⟩ := h.mem_cycle_iff.mp hx'
  obtain rfl : i = j := Option.some.inj (hx.symm.trans hx')
  exact hdisjoint hi hj

/-- An identity in two cycles is in one and the same. -/
theorem Sound.cycle_position_inj (h : r.Sound) {cycle' : List GlobalName} {j : Nat}
    (hi : r.cycles[i]? = some cycle) (hj : r.cycles[j]? = some cycle') (hx : x ∈ cycle)
    (hx' : x ∈ cycle') : i = j := by
  obtain ⟨hlt, rfl⟩ := List.getElem?_eq_some_iff.mp hi
  obtain ⟨hlt', rfl⟩ := List.getElem?_eq_some_iff.mp hj
  have hpairwise := List.pairwise_iff_getElem.mp h.pairwise_disjoint_cycles
  rcases Nat.lt_trichotomy i j with hij | hij | hij
  · exact absurd hx' (hpairwise i j hlt hlt' hij hx)
  · exact hij
  · exact absurd hx (hpairwise j i hlt' hlt hij hx')

/-- The list of a cyclic component is its identities, the first of them once more at the end. -/
theorem Sound.identitiesAt_cycle (h : r.Sound) {c : List Nat}
    (hc : c ∈ r.graph.cyclicComponents) : ∃ first rest, r.identitiesAt c = first :: rest ∧
      r.identitiesAt (c ++ c.take 1) = first :: rest ++ [first] := by
  obtain ⟨i, rest, rfl⟩ :=
    List.exists_cons_of_ne_nil (Digraph.isComponent_of_mem_cyclic h.bounded hc).ne_nil
  have hloop := (Digraph.mem_cyclicComponent_iff h.bounded hc List.mem_cons_self).mp
    List.mem_cons_self
  obtain ⟨j, hlink, -⟩ := Relation.TransGen.head'_iff.mp hloop.1
  obtain ⟨x, hx⟩ := h.exists_position (h.bounded i j hlink).1
  obtain ⟨e, he, rfl⟩ := h.position?_eq_some_iff.mp hx
  have hcons : ∀ positions, r.identitiesAt (i :: positions) =
      e.identity :: r.identitiesAt positions := fun positions => by simp [identitiesAt, he]
  refine ⟨e.identity, r.identitiesAt rest, hcons rest, ?_⟩
  rw [identitiesAt_append, hcons, List.take_succ_cons, hcons]
  rfl

/-- A cycle ends with its first identity, and has no other one twice. -/
theorem Sound.exists_of_mem_cycles (h : r.Sound) (hcycle : cycle ∈ r.cycles) :
    ∃ first rest, cycle = first :: rest ++ [first] ∧ (first :: rest).Nodup := by
  obtain ⟨c, hc, rfl⟩ := mem_cycles_iff.mp hcycle
  obtain ⟨first, rest, hlist, hcycle⟩ := h.identitiesAt_cycle hc
  refine ⟨first, rest, hcycle, ?_⟩
  rw [← hlist]
  exact h.nodup_identitiesAt (Digraph.isComponent_of_mem_cyclic h.bounded hc).nodup

/-! ## The findings about the cycles -/

/-- A finding tells of a cycle at the statement of its first identity. -/
def IsCycleFinding (r : IdentityRegistry) (cycle : List GlobalName) (f : Finding) : Prop :=
  ∃ e ∈ r.entries, cycle.head? = some e.identity ∧
    f = { subject := .statement e.node e.origin
          kind := .identityCycle
          message := "Identity derivation cycle: " ++ renderCycle cycle }

/-- Every cycle has a finding. -/
theorem Sound.cycleFinding?_of_mem (h : r.Sound) (hcycle : cycle ∈ r.cycles) :
    ∃ f, r.cycleFinding? cycle = some f ∧ r.IsCycleFinding cycle f := by
  obtain ⟨first, rest, hlist, -⟩ := h.exists_of_mem_cycles hcycle
  have hmem : first ∈ cycle := by simp [hlist]
  obtain ⟨i, hi⟩ := MutuallyDerived.exists_position
    (h.exists_cycle_iff.mp ⟨cycle, hcycle, hmem, hmem⟩)
  obtain ⟨e, he, hfirst⟩ := position?_eq_some hi
  have hhead : cycle.head? = some first := by simp [hlist]
  have hfind : r.entries.find? (fun e => decide (e.identity = first)) = some e :=
    (find?_key_eq_some_iff h.distinct_identities).mpr ⟨List.mem_of_getElem? he, hfirst⟩
  refine ⟨_, ?_, e, List.mem_of_getElem? he, hfirst ▸ hhead, rfl⟩
  simp [cycleFinding?, hhead, hfind]

/-- There is one finding for each cycle, in their order. -/
theorem Sound.forall₂_cycleFinding (h : r.Sound) : List.Forall₂ r.IsCycleFinding r.cycles
    (r.findings.filter fun f => decide (f.kind = .identityCycle)) := by
  have hmissing : ∀ uses : List BaseUse,
      (uses.map missingBase).filter (fun f => decide (f.kind = .identityCycle)) = [] := by
    intro uses
    simp [List.filter_eq_nil_iff, missingBase]
  have hkind : ∀ cycle f, r.cycleFinding? cycle = some f → f.kind = .identityCycle := by
    intro cycle f hf
    simp only [cycleFinding?, Option.bind_eq_bind, Option.bind_eq_some_iff] at hf
    obtain ⟨first, -, e, -, hf⟩ := hf
    cases hf
    rfl
  have hkept : (r.cycles.filterMap r.cycleFinding?).filter
      (fun f => decide (f.kind = .identityCycle)) = r.cycles.filterMap r.cycleFinding? := by
    refine List.filter_eq_self.mpr fun f hf => ?_
    obtain ⟨cycle, -, hf⟩ := List.mem_filterMap.mp hf
    exact decide_eq_true (hkind cycle f hf)
  simp only [findings, List.filter_append, hmissing, hkept, List.nil_append]
  have hall : ∀ cycles ⊆ r.cycles,
      List.Forall₂ r.IsCycleFinding cycles (cycles.filterMap r.cycleFinding?) := by
    intro cycles hsub
    induction cycles with
    | nil => exact .nil
    | cons cycle rest ih =>
      obtain ⟨hcycle, hrest⟩ := List.cons_subset.mp hsub
      obtain ⟨f, hf, hfinding⟩ := h.cycleFinding?_of_mem hcycle
      rw [List.filterMap_cons_some hf]
      exact .cons hfinding (ih hrest)
  exact hall r.cycles (List.Subset.refl _)

/-! ## The test for cycles -/

/-- The test fails with the first cycle, when there is one. -/
theorem Sound.checkAcyclic_eq (h : r.Sound) {isCyclic : Digraph → Bool}
    (htest : Digraph.Detects isCyclic) : r.checkAcyclic isCyclic =
      match r.cycles with
      | [] => .ok ()
      | first :: _ => .error first := by
  have hcyclic : isCyclic r.graph = true ↔ r.cycles ≠ [] := by
    rw [htest r.graph h.bounded, ← Digraph.cyclicComponents_ne_nil_iff h.bounded]
    simp [cycles]
  unfold checkAcyclic
  split
  · next hfound =>
    obtain ⟨first, rest, hcycles⟩ := List.exists_cons_of_ne_nil (hcyclic.mp hfound)
    simp [hcycles]
  · next hnone =>
    have hcycles : r.cycles = [] := Decidable.not_not.mp fun hne => hnone (hcyclic.mpr hne)
    simp [hcycles]

/-! ## What a registry tells of its cycles -/

/-- The cycles that a registry lists are the groups of identities that are derived from each
other.  The test for cycles and the findings tell of the same. -/
structure ReportsCycles (isCyclic : Digraph → Bool) (r : IdentityRegistry) : Prop where
  /-- The steps are those from the identities that the bases of an entry name to its own. -/
  edge_iff : ∀ b d, r.Edge b d ↔ ∃ e ∈ r.entries, ∃ e' ∈ r.entries, e.identity = b ∧
    e'.identity = d ∧ ∃ use ∈ e'.bases, use.target = b.key
  /-- Two identities share a list when each is derived from the other; an identity is in a list
  at all when it is derived from itself. -/
  together_iff : ∀ x y, (∃ cycle ∈ r.cycles, x ∈ cycle ∧ y ∈ cycle) ↔
    TransGen r.Edge x y ∧ TransGen r.Edge y x
  /-- An identity that is derived from itself is in one list only. -/
  unique : ∀ x, TransGen r.Edge x x → ∃! i : Nat, ∃ cycle, r.cycles[i]? = some cycle ∧ x ∈ cycle
  /-- The first identity is repeated at the end, and no other repetition occurs. -/
  closed : ∀ cycle ∈ r.cycles, ∃ first rest,
    cycle = first :: rest ++ [first] ∧ (first :: rest).Nodup
  /-- The test fails with the first list, and passes when there is none. -/
  checked : r.checkAcyclic isCyclic =
    match r.cycles with
    | [] => .ok ()
    | first :: _ => .error first
  /-- Each list has one finding, at the statement of its first identity. -/
  reported : List.Forall₂ r.IsCycleFinding r.cycles
    (r.findings.filter fun f => decide (f.kind = .identityCycle))

end IdentityRegistry

namespace IdentityCollection

open IdentityRegistry

/-- Whatever entries are taken in, the registry tells of the cycles among them, given a test that
detects the cycles of a graph. -/
theorem freeze_reportsCycles {isCyclic : Digraph → Bool} (htest : Digraph.Detects isCyclic)
    (entries : List IdentityEntry) : (ofEntries entries).freeze.ReportsCycles isCyclic := by
  have hsound := (keyed_ofEntries entries).sound
  refine ⟨fun b d => ?_, fun x y => hsound.exists_cycle_iff, fun x hloop => ?_,
    fun cycle hcycle => hsound.exists_of_mem_cycles hcycle, hsound.checkAcyclic_eq htest,
    hsound.forall₂_cycleFinding⟩
  · exact IdentityRegistry.edge_ofSorted_iff hsound.distinct
  · obtain ⟨cycle, hcycle, hx, -⟩ := hsound.exists_cycle_iff.mpr
      (⟨hloop, hloop⟩ : MutuallyDerived _ x x)
    obtain ⟨i, hi⟩ := List.mem_iff_getElem?.mp hcycle
    refine ⟨i, ⟨cycle, hi, hx⟩, ?_⟩
    rintro j ⟨cycle', hj, hx'⟩
    exact hsound.cycle_position_inj hj hi hx' hx

/-- An identity of the module `m`, derived from others of it. -/
def sampleEntry (name : String) (bases : List String) : IdentityEntry :=
  let origin : Origin := ⟨none, "identity", none⟩
  { identity := ⟨"urn:m", "m", name⟩
    node := ⟨0⟩
    origin
    bases := bases.map fun base => ⟨⟨"m", base⟩, ⟨0⟩, origin⟩ }

/-- Two identities that are derived from each other, one that is its own base, and one that is
derived from the others but not from itself. -/
def mutualIdentities : List IdentityEntry :=
  [sampleEntry "a" ["b"], sampleEntry "b" ["a"], sampleEntry "c" ["c"], sampleEntry "d" ["a", "c"]]

/-- Of four identities the first two and the third one are in cycles, and the last one is in none.
-/
theorem freeze_reportsCycles_mutualIdentities :
    Digraph.Detects Digraph.hasCycle ∧
      (ofEntries mutualIdentities).freeze.ReportsCycles Digraph.hasCycle ∧
      (ofEntries mutualIdentities).freeze.cycles.map (·.map (·.localName)) =
        [["b", "a", "b"], ["c", "c"]] :=
  ⟨Digraph.detects_hasCycle, freeze_reportsCycles Digraph.detects_hasCycle mutualIdentities, by cbv⟩

end IdentityCollection
end StatementForest
