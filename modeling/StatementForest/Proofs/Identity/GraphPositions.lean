import Mathlib.Data.List.Nodup
import StatementForest.Identity.Registry
import StatementForest.Proofs.Graph.Reachability

/-!
# Identities and the nodes of their graph

A registry keeps its identities in a list and their derivation in a graph of positions.  When a
module and a name stand for one identity, a position and an identity stand for each other, so an
edge between positions is a step of derivation between identities, and what the searches of the
graph find are the identities that these steps lead to.

Main results:

- Theorem `IdentityRegistry.edge_ofSorted_iff`: which steps a registry of entries has.
- Theorem `IdentityRegistry.Sound.mem_derivatives_iff`, `IdentityRegistry.Sound.mem_bases_iff`:
  both tell of the steps, read in opposite directions.
- Theorem `IdentityRegistry.Sound.mem_closure_iff`,
  `IdentityRegistry.Sound.isDerivedFrom_iff`: both tell where any number of steps lead.
-/

namespace StatementForest

/-! ## Different keys -/

section Lookup

variable {α β : Type} [DecidableEq β] {f : α → β} {l : List α} {a : α} {b : β} {i : Nat}

/-- With different keys an entry is found at its own position. -/
theorem findIdx?_key_eq_some_iff (h : (l.map f).Nodup) :
    l.findIdx? (fun a => decide (f a = b)) = some i ↔ ∃ a, l[i]? = some a ∧ f a = b := by
  rw [List.findIdx?_eq_some_iff_getElem]
  constructor
  · rintro ⟨hlt, hkey, -⟩
    exact ⟨l[i], List.getElem?_eq_getElem hlt, of_decide_eq_true hkey⟩
  · rintro ⟨a, hi, hkey⟩
    obtain ⟨hlt, rfl⟩ := List.getElem?_eq_some_iff.mp hi
    refine ⟨hlt, decide_eq_true hkey, fun j hj hjkey => ?_⟩
    have hjlt : j < l.length := Nat.lt_trans hj hlt
    have heq : (l.map f)[j]? = (l.map f)[i]? := by
      rw [List.getElem?_map, List.getElem?_map, List.getElem?_eq_getElem hjlt, hi,
        Option.map_some, Option.map_some, of_decide_eq_true hjkey, hkey]
    exact Nat.ne_of_lt hj ((List.getElem?_inj (by rwa [List.length_map]) h).mp heq)

/-- With different keys an entry is the one that is found. -/
theorem find?_key_eq_some_iff (h : (l.map f).Nodup) :
    l.find? (fun a => decide (f a = b)) = some a ↔ a ∈ l ∧ f a = b := by
  constructor
  · intro hfind
    have hkey := List.find?_some hfind
    exact ⟨List.mem_of_find?_eq_some hfind, of_decide_eq_true hkey⟩
  · rintro ⟨hmem, hkey⟩
    have hsome : (l.find? fun a => decide (f a = b)).isSome = true :=
      List.find?_isSome.mpr ⟨a, hmem, decide_eq_true hkey⟩
    obtain ⟨a', ha'⟩ := Option.isSome_iff_exists.mp hsome
    have hkey' : f a' = b := by simpa using List.find?_some ha'
    rw [ha', List.inj_on_of_nodup_map h (List.mem_of_find?_eq_some ha') hmem
      (hkey'.trans hkey.symm)]

end Lookup

/-! ## Connecting -/

namespace Digraph

variable {g : Digraph} {sources : List Nat} {u v w target : Nat}

/-- An edge adds no node. -/
@[simp]
theorem order_connect (g : Digraph) (v w : Nat) : (g.connect v w).order = g.order := by
  rw [connect]
  split <;> rfl

/-- Connecting sources with a target adds these edges. -/
theorem links_foldl_connect :
    (sources.foldl (fun g source => g.connect source target) g).Links v w ↔
      g.Links v w ∨ (v ∈ sources ∧ w = target) := by
  induction sources generalizing g with
  | nil => simp
  | cons u rest ih =>
    rw [List.foldl_cons, ih, Links, mem_edges_connect, Prod.mk.injEq, List.mem_cons, Links,
      or_and_right, or_assoc]

/-- Edges from several nodes add no node. -/
theorem order_foldl_connect :
    (sources.foldl (fun g source => g.connect source target) g).order = g.order := by
  induction sources generalizing g with
  | nil => rfl
  | cons u rest ih => rw [List.foldl_cons, ih, order_connect]

end Digraph

namespace IdentityRegistry

variable {entries : List IdentityEntry} {r : IdentityRegistry} {g : Digraph} {e : IdentityEntry}
  {x y b d : GlobalName} {i j : Nat}

/-! ## The graph of some entries -/

/-- The edges of an entry lead from the positions of its bases to its own. -/
theorem links_connectBases : (r.connectBases g j e).Links v w ↔
    g.Links v w ∨ w = j ∧ ∃ use ∈ e.bases, r.positionOfKey? use.target = some v := by
  rw [connectBases, Digraph.links_foldl_connect, List.mem_filterMap, and_comm (a := w = j)]

/-- The graph is made by adding the edges of one entry after another. -/
theorem graph_ofSorted (entries : List IdentityEntry) : (ofSorted entries).graph =
    entries.zipIdx.foldl (fun g p => (ofSorted entries).connectBases g p.2 p.1)
      ⟨entries.length, []⟩ := rfl

/-- An edge leads from each known base of an entry to the entry. -/
theorem links_ofSorted_iff : (ofSorted entries).graph.Links i j ↔
    ∃ e, entries[j]? = some e ∧
      ∃ use ∈ e.bases, (ofSorted entries).positionOfKey? use.target = some i := by
  have hfold : ∀ (places : List (IdentityEntry × Nat)) (g : Digraph),
      (places.foldl (fun g p => (ofSorted entries).connectBases g p.2 p.1) g).Links i j ↔
        g.Links i j ∨ ∃ p ∈ places, j = p.2 ∧
          ∃ use ∈ p.1.bases, (ofSorted entries).positionOfKey? use.target = some i := by
    intro places
    induction places with
    | nil => simp
    | cons p rest ih =>
      intro g
      rw [List.foldl_cons, ih, links_connectBases, or_assoc]
      simp only [List.mem_cons, exists_eq_or_imp]
  rw [graph_ofSorted, hfold]
  constructor
  · rintro (hnil | ⟨⟨e, j'⟩, hmem, rfl, huse⟩)
    · cases hnil
    · exact ⟨e, List.mem_zipIdx_iff_getElem?.mp hmem, huse⟩
  · rintro ⟨e, hj, huse⟩
    exact .inr ⟨(e, j), List.mem_zipIdx_iff_getElem?.mpr hj, rfl, huse⟩

/-- There is a node for each entry. -/
theorem order_ofSorted : (ofSorted entries).graph.order = entries.length := by
  have hfold : ∀ (places : List (IdentityEntry × Nat)) (g : Digraph),
      (places.foldl (fun g p => (ofSorted entries).connectBases g p.2 p.1) g).order = g.order := by
    intro places
    induction places with
    | nil => exact fun _ => rfl
    | cons p rest ih =>
      intro g
      rw [List.foldl_cons, ih]
      exact Digraph.order_foldl_connect
  rw [graph_ofSorted, hfold]

/-! ## Sound registries -/

/-- A module and a name stand for one identity, and the nodes of the graph are the positions. -/
structure Sound (r : IdentityRegistry) : Prop where
  distinct : (r.entries.map (·.identity.key)).Nodup
  order : r.graph.order = r.entries.length
  bounded : r.graph.Bounded

/-- Entries with different keys make a sound registry. -/
theorem sound_ofSorted (h : (entries.map (·.identity.key)).Nodup) : (ofSorted entries).Sound where
  distinct := h
  order := order_ofSorted
  bounded i j hlink := by
    obtain ⟨e, hj, use, -, hi⟩ := links_ofSorted_iff.mp hlink
    obtain ⟨hilt, -⟩ := List.findIdx?_eq_some_iff_getElem.mp hi
    obtain ⟨hjlt, -⟩ := List.getElem?_eq_some_iff.mp hj
    rw [order_ofSorted]
    exact ⟨hilt, hjlt⟩

/-- An identity that is in a registry. -/
def Registered (r : IdentityRegistry) (x : GlobalName) : Prop := ∃ e ∈ r.entries, e.identity = x

/-- One identity is directly derived from another. -/
def Edge (r : IdentityRegistry) (base derived : GlobalName) : Prop :=
  ∃ i j, r.position? base = some i ∧ r.position? derived = some j ∧ r.graph.Links i j

namespace Sound

/-- The identities of a sound registry are different. -/
theorem distinct_identities (h : r.Sound) : (r.entries.map (·.identity)).Nodup := by
  have hkeys : ((r.entries.map (·.identity)).map GlobalName.key).Nodup := by
    rw [List.map_map]
    exact h.distinct
  exact hkeys.of_map

/-- The position of a key is that of the entry with this key. -/
theorem positionOfKey?_eq_some_iff (h : r.Sound) {key : Key} :
    r.positionOfKey? key = some i ↔ ∃ e, r.entries[i]? = some e ∧ e.identity.key = key :=
  findIdx?_key_eq_some_iff h.distinct

/-- The position of an identity is that of its entry. -/
theorem position?_eq_some_iff (h : r.Sound) :
    r.position? x = some i ↔ ∃ e, r.entries[i]? = some e ∧ e.identity = x :=
  findIdx?_key_eq_some_iff h.distinct_identities

/-- The statement of an identity is that of its entry. -/
theorem statementOf?_eq_some_iff (h : r.Sound) {node : NodeId} :
    r.statementOf? x = some node ↔ ∃ e ∈ r.entries, e.identity = x ∧ e.node = node := by
  simp only [statementOf?, Option.map_eq_some_iff, find?_key_eq_some_iff h.distinct_identities,
    and_assoc]

/-- An identity is registered when it has a position. -/
theorem registered_iff (h : r.Sound) : r.Registered x ↔ ∃ i, r.position? x = some i := by
  constructor
  · rintro ⟨e, he, hx⟩
    obtain ⟨i, hi⟩ := List.mem_iff_getElem?.mp he
    exact ⟨i, h.position?_eq_some_iff.mpr ⟨e, hi, hx⟩⟩
  · rintro ⟨i, hi⟩
    obtain ⟨e, he, hx⟩ := h.position?_eq_some_iff.mp hi
    exact ⟨e, List.mem_of_getElem? he, hx⟩

/-- Positions are nodes of the graph. -/
theorem lt_order (h : r.Sound) (hi : r.position? x = some i) : i < r.graph.order := by
  obtain ⟨e, he, -⟩ := h.position?_eq_some_iff.mp hi
  rw [h.order]
  exact (List.getElem?_eq_some_iff.mp he).1

/-- Every node is the position of an identity. -/
theorem exists_position (h : r.Sound) (hi : i < r.graph.order) : ∃ x, r.position? x = some i := by
  rw [h.order] at hi
  exact ⟨_, h.position?_eq_some_iff.mpr ⟨_, List.getElem?_eq_getElem hi, rfl⟩⟩

/-- Positions of one node belong to one identity. -/
theorem position?_inj (h : r.Sound) (hx : r.position? x = some i) (hy : r.position? y = some i) :
    x = y := by
  obtain ⟨e, he, rfl⟩ := h.position?_eq_some_iff.mp hx
  obtain ⟨e', he', rfl⟩ := h.position?_eq_some_iff.mp hy
  rw [he] at he'
  cases he'
  rfl

/-! ## Queries -/

/-- A look finds the identities at the positions that it is told. -/
theorem mem_look_iff (h : r.Sound) {f : Nat → List Nat} :
    y ∈ r.look x f ↔ ∃ i j, r.position? x = some i ∧ r.position? y = some j ∧ j ∈ f i := by
  have hat : ∀ positions, y ∈ r.identitiesAt (r.ordered positions) ↔
      ∃ j, r.position? y = some j ∧ j ∈ positions := by
    intro positions
    simp only [identitiesAt, ordered, List.mem_filterMap, List.mem_filter, Digraph.mem_nodes,
      List.contains_iff_mem, Option.map_eq_some_iff, ← h.position?_eq_some_iff]
    constructor
    · rintro ⟨j, ⟨-, hj⟩, hy⟩
      exact ⟨j, hy, hj⟩
    · rintro ⟨j, hy, hj⟩
      exact ⟨j, ⟨h.lt_order hy, hj⟩, hy⟩
  rw [look]
  rcases r.position? x with _ | i
  · simp
  · simp only [hat, Option.some.injEq]
    exact ⟨fun hy => ⟨i, hy.imp fun _ hj => ⟨rfl, hj⟩⟩, fun ⟨_, _, rfl, hy⟩ => ⟨_, hy⟩⟩

/-- What is derived from an identity is what its steps lead to. -/
theorem mem_derivatives_iff (h : r.Sound) : d ∈ r.derivatives b ↔ r.Edge b d := by
  rw [derivatives, h.mem_look_iff, Edge]
  simp only [Digraph.mem_successors]

/-- The bases of an identity are what it is derived from. -/
theorem mem_bases_iff (h : r.Sound) : b ∈ r.bases d ↔ r.Edge b d := by
  rw [bases, h.mem_look_iff, Edge]
  simp only [Digraph.mem_predecessors]
  constructor
  · rintro ⟨j, i, hj, hi, hlink⟩
    exact ⟨i, j, hi, hj, hlink⟩
  · rintro ⟨i, j, hi, hj, hlink⟩
    exact ⟨j, i, hj, hi, hlink⟩

/-- Edges lead from one position to another when steps lead from one identity to the other. -/
theorem linked_iff (h : r.Sound) (hx : r.position? x = some i) :
    (∃ j, r.position? y = some j ∧ Relation.ReflTransGen r.graph.Links i j) ↔
      Relation.ReflTransGen r.Edge x y := by
  constructor
  · rintro ⟨j, hy, hpath⟩
    induction hpath generalizing y with
    | refl => rw [h.position?_inj hx hy]
    | tail _ hlink ih =>
      obtain ⟨z, hz⟩ := h.exists_position (h.bounded _ _ hlink).1
      exact .tail (ih hz) ⟨_, _, hz, hy, hlink⟩
  · intro hpath
    induction hpath with
    | refl => exact ⟨i, hx, .refl⟩
    | tail _ hedge ih =>
      obtain ⟨j, hj, hpath⟩ := ih
      obtain ⟨j', k, hj', hk, hlink⟩ := hedge
      rw [hj] at hj'
      cases hj'
      exact ⟨k, hk, hpath.tail hlink⟩

/-- The closure of a registered identity is what any number of steps lead to. -/
theorem mem_closure_iff (h : r.Sound) :
    y ∈ r.closure x ↔ r.Registered x ∧ Relation.ReflTransGen r.Edge x y := by
  rw [closure, h.mem_look_iff, h.registered_iff]
  constructor
  · rintro ⟨i, j, hx, hy, hreach⟩
    have hpath := (Digraph.mem_reach_iff h.bounded (h.lt_order hx)).mp hreach
    exact ⟨⟨i, hx⟩, (h.linked_iff hx).mp ⟨j, hy, hpath⟩⟩
  · rintro ⟨⟨i, hx⟩, hpath⟩
    obtain ⟨j, hy, hpath⟩ := (h.linked_iff hx).mpr hpath
    exact ⟨i, j, hx, hy, (Digraph.mem_reach_iff h.bounded (h.lt_order hx)).mpr hpath⟩

/-- Being derived from an identity is being in its closure. -/
theorem isDerivedFrom_iff (h : r.Sound) : r.isDerivedFrom d b = true ↔ d ∈ r.closure b := by
  rw [closure, h.mem_look_iff, isDerivedFrom]
  rcases r.position? b with _ | i
  · simp
  rcases r.position? d with _ | j
  · simp
  · simp

end Sound

/-- A registry of entries has a step for each base that refers to an entry. -/
theorem edge_ofSorted_iff (h : (entries.map (·.identity.key)).Nodup) :
    (ofSorted entries).Edge b d ↔ ∃ e ∈ entries, ∃ e' ∈ entries, e.identity = b ∧
      e'.identity = d ∧ ∃ use ∈ e'.bases, use.target = b.key := by
  have hsound := sound_ofSorted h
  constructor
  · rintro ⟨i, j, hb, hd, hlink⟩
    obtain ⟨e', hj, use, huse, hi⟩ := links_ofSorted_iff.mp hlink
    obtain ⟨e, he, hkey⟩ := hsound.positionOfKey?_eq_some_iff.mp hi
    obtain ⟨e₁, he₁, rfl⟩ := hsound.position?_eq_some_iff.mp hb
    obtain ⟨e₂, he₂, rfl⟩ := hsound.position?_eq_some_iff.mp hd
    have heq : e₁ = e := Option.some.inj (he₁.symm.trans he)
    have heq' : e₂ = e' := Option.some.inj (he₂.symm.trans hj)
    exact ⟨e₁, List.mem_of_getElem? he₁, e₂, List.mem_of_getElem? he₂, rfl, rfl, use,
      heq' ▸ huse, heq ▸ hkey.symm⟩
  · rintro ⟨e, he, e', he', rfl, rfl, use, huse, hkey⟩
    obtain ⟨i, hi⟩ := List.mem_iff_getElem?.mp he
    obtain ⟨j, hj⟩ := List.mem_iff_getElem?.mp he'
    refine ⟨i, j, hsound.position?_eq_some_iff.mpr ⟨e, hi, rfl⟩,
      hsound.position?_eq_some_iff.mpr ⟨e', hj, rfl⟩,
      links_ofSorted_iff.mpr ⟨e', hj, use, huse, ?_⟩⟩
    exact hsound.positionOfKey?_eq_some_iff.mpr ⟨e, hi, hkey.symm⟩

end IdentityRegistry
end StatementForest
