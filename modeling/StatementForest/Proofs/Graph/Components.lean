import StatementForest.Proofs.Graph.ComponentInvariant

/-!
# The components that the search finds

A search that begins without open nodes ends without them, so every node it was asked to visit is
closed at the end and belongs to one component.  A component whose nodes reach themselves has more
than one node, or an edge from its only node to itself.

Main results:

- Theorem `ComponentSearch.sound_run`: the whole search is sound and closes every node.
- Theorem `Digraph.exists_cyclicComponent_iff`: two nodes share a cyclic component when each leads
  to the other.
- Theorem `Digraph.pairwise_disjoint_cyclicComponents`: no node is in two of them.
- Theorem `Digraph.cyclicComponents_ne_nil_iff`: there are some when some node leads to itself.
- Theorem `Digraph.detects_hasCycle`: a test for cycles that does not look at components.

Current gaps:

- The order in which components are given out is that of one search.  That it is a topological
  order of the components is not stated.
-/

namespace StatementForest

open Relation (ReflTransGen TransGen)

/-! ## The whole search -/

namespace ComponentSearch

variable {g : Digraph} {s t : ComponentSearch} {v : Nat} {nodes : List Nat}

/-- Without open nodes, what was visited is closed. -/
theorem Sound.closed_of_visited (h : Sound g [] s) (hv : s.mark v ≠ .unvisited) :
    s.mark v = .closed := by
  cases hmark : s.mark v with
  | unvisited => exact absurd hmark hv
  | active low =>
    have hmem := (h.mem_trail_iff v).mpr ⟨low, hmark⟩
    cases hmem
  | closed => rfl

/-- A visit that begins without open nodes ends without them. -/
theorem sound_visit (hg : g.Bounded) (h : Sound g [] s) (hs : s.mark v = .unvisited)
    (hv : v < g.order) : Sound g [] (visit g g.order v s) ∧ KeepsVisited s (visit g g.order v s) ∧
      (visit g g.order v s).mark v = .closed := by
  have hroom : room g s ≤ g.order := by
    refine Nat.le_trans (List.length_filter_le _ _) ?_
    simp [Digraph.nodes]
  obtain ⟨low, state, new, seg, hexamined, heq⟩ := visit_spec hg h hs hv hroom
  have hle := hexamined.sound.low_le _ v low getElem?_visited hexamined.mark
  obtain rfl : low = ([] : List Nat).length := by simpa using hle
  have hnoted : ∀ w, g.Links v w → EdgeCounted ([] ++ v :: new) state.1 ([] : List Nat).length w :=
    fun w hlink => hexamined.edgeCounted w (Digraph.mem_successors.mpr hlink)
  have hleave : leave v state = state.1.close v := by simp [leave, hexamined.own]
  rw [heq, hleave]
  refine ⟨hexamined.sound_close hexamined.mark hnoted h,
    hexamined.keepsVisited_close hexamined.mark h, ?_⟩
  rw [hexamined.close_eq hexamined.mark h]
  exact if_pos List.mem_cons_self

/-- Visiting some nodes one after the other closes them all. -/
theorem sound_foldl_visit (hg : g.Bounded) (hnodes : ∀ v ∈ nodes, v < g.order)
    (h : Sound g [] s) :
    Sound g [] (nodes.foldl
      (fun s v => if s.mark v = .unvisited then visit g g.order v s else s) s) ∧
    ∀ v, s.mark v ≠ .unvisited ∨ v ∈ nodes → (nodes.foldl
      (fun s v => if s.mark v = .unvisited then visit g g.order v s else s) s).mark v =
        .closed := by
  induction nodes generalizing s with
  | nil =>
    refine ⟨h, fun v hv => ?_⟩
    obtain hv | hv := hv
    · exact h.closed_of_visited hv
    · cases hv
  | cons w rest ih =>
    obtain ⟨hw, hrest⟩ := List.forall_mem_cons.mp hnodes
    rw [List.foldl_cons]
    split
    · next hunvisited =>
      obtain ⟨hsound, hkeeps, hclosed⟩ := sound_visit hg h hunvisited hw
      obtain ⟨hend, hall⟩ := ih hrest hsound
      refine ⟨hend, fun v hv => hall v ?_⟩
      obtain hv | hv := hv
      · exact .inl (by rwa [hkeeps v hv])
      · obtain rfl | hv := List.mem_cons.mp hv
        · exact .inl (by simp [hclosed])
        · exact .inr hv
    · next hvisited =>
      obtain ⟨hend, hall⟩ := ih hrest h
      refine ⟨hend, fun v hv => hall v ?_⟩
      obtain hv | hv := hv
      · exact .inl hv
      · obtain rfl | hv := List.mem_cons.mp hv
        · exact .inl hvisited
        · exact .inr hv

/-- The whole search is sound and closes every node. -/
theorem sound_run (hg : g.Bounded) :
    Sound g [] (run g) ∧ ∀ v < g.order, (run g).mark v = .closed := by
  obtain ⟨hsound, hall⟩ :=
    sound_foldl_visit hg (fun v hv => Digraph.mem_nodes.mp hv) (sound_empty g)
  exact ⟨hsound, fun v hv => hall v (.inr (Digraph.mem_nodes.mpr hv))⟩

end ComponentSearch

namespace Digraph

variable {g : Digraph} {c c' : List Nat} {v w : Nat}

/-! ## Components -/

/-- What the search gives out are components. -/
theorem isComponent_of_mem (hg : g.Bounded) (hc : c ∈ g.components) : g.IsComponent c :=
  (ComponentSearch.sound_run hg).1.isComponent c hc

/-- No node is in two components. -/
theorem nodup_flatten_components (hg : g.Bounded) : g.components.flatten.Nodup :=
  (ComponentSearch.sound_run hg).1.nodup_components

/-- Every node is in a component. -/
theorem exists_component (hg : g.Bounded) (hv : v < g.order) : ∃ c ∈ g.components, v ∈ c := by
  obtain ⟨hsound, hclosed⟩ := ComponentSearch.sound_run hg
  exact List.mem_flatten.mp ((hsound.mem_components_iff v).mpr (hclosed v hv))

namespace IsComponent

/-- A component has at least one node. -/
theorem ne_nil (h : g.IsComponent c) : c ≠ [] := by
  obtain ⟨root, members, rfl, -⟩ := h.exists_root
  simp

/-- A node of a component that is not its only one leads to itself. -/
theorem transGen_of_ne (h : g.IsComponent c) (hv : v ∈ c) (hw : w ∈ c) (hne : w ≠ v) :
    TransGen g.Links v w := by
  obtain ⟨hpath, -⟩ := (h.mem_iff v hv w).mp hw
  exact (Relation.reflTransGen_iff_eq_or_transGen.mp hpath).resolve_left hne

/-- A node that is its own component leads to itself by an edge, or not at all. -/
theorem links_self (h : g.IsComponent [v]) (hpath : TransGen g.Links v v) : g.Links v v := by
  obtain ⟨w, hlink, hback⟩ := Relation.TransGen.head'_iff.mp hpath
  have hw : w ∈ [v] := (h.mem_iff v (List.mem_singleton_self v) w).mpr ⟨.single hlink, hback⟩
  rwa [List.mem_singleton.mp hw] at hlink

/-- A component is cyclic when a node of it, and then every one, leads to itself. -/
theorem isCyclic_iff (h : g.IsComponent c) (hv : v ∈ c) :
    g.isCyclic c = true ↔ TransGen g.Links v v := by
  match c, h, hv with
  | [u], h, hv =>
    obtain rfl := List.mem_singleton.mp hv
    rw [isCyclic, List.contains_iff_mem]
    exact ⟨fun hlink => .single hlink, h.links_self⟩
  | u :: u' :: rest, h, hv =>
    have hne : u ≠ u' := by
      have hnodup := h.nodup
      simp only [List.nodup_cons, List.mem_cons, not_or] at hnodup
      exact hnodup.1.1
    -- one of the first two is not `v`
    have hother : ∃ w ∈ u :: u' :: rest, w ≠ v := by
      by_cases huv : u = v
      · exact ⟨u', by simp, fun heq => hne (huv.trans heq.symm)⟩
      · exact ⟨u, by simp, huv⟩
    obtain ⟨w, hw, hwv⟩ := hother
    have hloop := (h.transGen_of_ne hv hw hwv).trans (h.transGen_of_ne hw hv hwv.symm)
    simp [isCyclic, hloop]

end IsComponent

/-! ## Cyclic components -/

/-- What is given out as cyclic are components. -/
theorem isComponent_of_mem_cyclic (hg : g.Bounded) (hc : c ∈ g.cyclicComponents) :
    g.IsComponent c :=
  isComponent_of_mem hg (List.mem_filter.mp hc).1

/-- The nodes of a cyclic component are those that lead to one of it and are led to by it. -/
theorem mem_cyclicComponent_iff (hg : g.Bounded) (hc : c ∈ g.cyclicComponents) (hv : v ∈ c) :
    w ∈ c ↔ TransGen g.Links v w ∧ TransGen g.Links w v := by
  have hcomponent := isComponent_of_mem_cyclic hg hc
  have hloop := (hcomponent.isCyclic_iff hv).mp (List.mem_filter.mp hc).2
  rw [hcomponent.mem_iff v hv w]
  constructor
  · rintro ⟨hpath, hback⟩
    exact ⟨hloop.trans_left hpath, hloop.trans_right hback⟩
  · rintro ⟨hpath, hback⟩
    exact ⟨hpath.to_reflTransGen, hback.to_reflTransGen⟩

/-- Two nodes are in one cyclic component when each leads to the other by an edge or more. -/
theorem exists_cyclicComponent_iff (hg : g.Bounded) :
    (∃ c ∈ g.cyclicComponents, v ∈ c ∧ w ∈ c) ↔ TransGen g.Links v w ∧ TransGen g.Links w v := by
  constructor
  · rintro ⟨c, hc, hv, hw⟩
    exact (mem_cyclicComponent_iff hg hc hv).mp hw
  · rintro ⟨hpath, hback⟩
    have hlt : v < g.order := by
      obtain ⟨u, hlink, -⟩ := Relation.TransGen.head'_iff.mp hpath
      exact (hg v u hlink).1
    obtain ⟨c, hc, hv⟩ := exists_component hg hlt
    have hcyclic : c ∈ g.cyclicComponents :=
      List.mem_filter.mpr ⟨hc, ((isComponent_of_mem hg hc).isCyclic_iff hv).mpr (hpath.trans hback)⟩
    exact ⟨c, hcyclic, hv, (mem_cyclicComponent_iff hg hcyclic hv).mpr ⟨hpath, hback⟩⟩

/-- No node is in two cyclic components. -/
theorem pairwise_disjoint_cyclicComponents (hg : g.Bounded) :
    g.cyclicComponents.Pairwise List.Disjoint :=
  ((List.nodup_flatten.mp (nodup_flatten_components hg)).2).filter _

/-- There is a cyclic component when some node leads to itself. -/
theorem cyclicComponents_ne_nil_iff (hg : g.Bounded) :
    g.cyclicComponents ≠ [] ↔ ∃ v, TransGen g.Links v v := by
  constructor
  · intro hne
    obtain ⟨c, hc⟩ := List.exists_mem_of_ne_nil _ hne
    obtain ⟨v, hv⟩ := List.exists_mem_of_ne_nil _ (isComponent_of_mem_cyclic hg hc).ne_nil
    exact ⟨v, ((mem_cyclicComponent_iff hg hc hv).mp hv).1⟩
  · rintro ⟨v, hloop⟩
    obtain ⟨c, hc, -⟩ := (exists_cyclicComponent_iff hg).mpr ⟨hloop, hloop⟩
    exact List.ne_nil_of_mem hc

/-! ## Testing for a cycle -/

/-- A test tells whether some node of a graph leads to itself by an edge or more. -/
def Detects (test : Digraph → Bool) : Prop :=
  ∀ g : Digraph, g.Bounded → (test g = true ↔ ∃ v, TransGen g.Links v v)

/-- Following every edge back to where it starts detects the cycles. -/
theorem detects_hasCycle : Detects hasCycle := by
  intro g hg
  simp only [hasCycle, List.any_eq_true, List.contains_iff_mem]
  constructor
  · rintro ⟨⟨v, w⟩, hlink, hback⟩
    have hpath := (mem_reach_iff hg (hg v w hlink).2).mp hback
    exact ⟨v, Relation.TransGen.head'_iff.mpr ⟨w, hlink, hpath⟩⟩
  · rintro ⟨v, hloop⟩
    obtain ⟨w, hlink, hpath⟩ := Relation.TransGen.head'_iff.mp hloop
    exact ⟨(v, w), hlink, (mem_reach_iff hg (hg v w hlink).2).mpr hpath⟩

end Digraph
end StatementForest
