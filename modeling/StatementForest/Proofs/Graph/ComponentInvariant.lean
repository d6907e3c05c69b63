import Mathlib.Data.List.Nodup
import StatementForest.Graph.Component
import StatementForest.Proofs.Graph.Reachability

/-!
# What the search for components keeps

A node is open from its visit until its component is given out.  Open nodes are numbered in the
order of their visits, and as closing a component takes back the numbers of its nodes, the number
of an open node is its place among the open nodes.  The smallest number that a node carries is that
of an open node it leads to.  Whatever is visited from a node stays on the stack above all that was
there before, until a node that still carries its own number closes: no edge leads from it, or
from what waits above it, to an open node with a smaller number.

Main results:

- Structure `ComponentSearch.Sound`: what holds of every state of the search.
- Theorem `ComponentSearch.VisitFinds.isComponent`: a node that carries its own number and what
  waits above it are a component.
- Theorem `ComponentSearch.VisitFinds.sound_close`: giving the component out keeps the state sound.
-/

namespace StatementForest

open Relation (ReflTransGen)

/-! ## Components -/

namespace Digraph

variable {g : Digraph} {u v w : Nat} {above above' l l' : List Nat}

/-- Each of two nodes leads to the other. -/
def Mutual (g : Digraph) (v w : Nat) : Prop :=
  ReflTransGen g.Links v w ∧ ReflTransGen g.Links w v

theorem Mutual.symm (h : g.Mutual v w) : g.Mutual w v := ⟨h.2, h.1⟩

theorem Mutual.trans (h : g.Mutual u v) (h' : g.Mutual v w) : g.Mutual u w :=
  ⟨h.1.trans h'.1, h'.2.trans h.2⟩

/-- An edge leads to every node of a list from one before it or from one of `above`. -/
def LinkedFrom (g : Digraph) : (above : List Nat) → List Nat → Prop
  | _, [] => True
  | above, v :: rest => (∃ u ∈ above, g.Links u v) ∧ g.LinkedFrom (v :: above) rest

/-- What is linked from some nodes is linked from more of them. -/
theorem LinkedFrom.mono (h : g.LinkedFrom above l) (hsub : above ⊆ above') :
    g.LinkedFrom above' l := by
  induction l generalizing above above' with
  | nil => trivial
  | cons v rest ih =>
    obtain ⟨⟨u, hu, hlink⟩, hrest⟩ := h
    exact ⟨⟨u, hsub hu, hlink⟩, ih hrest (List.cons_subset_cons v hsub)⟩

/-- Two lists that are linked from some nodes are linked together. -/
theorem LinkedFrom.append (h : g.LinkedFrom above l) (h' : g.LinkedFrom above l') :
    g.LinkedFrom above (l ++ l') := by
  induction l generalizing above with
  | nil => exact h'
  | cons v rest ih => exact ⟨h.1, ih h.2 (h'.mono (List.subset_cons_self v above))⟩

/-- The nodes that lead to a node and back, each once.  The node itself comes last, and an edge
leads to every other one from a later one. -/
structure IsComponent (g : Digraph) (component : List Nat) : Prop where
  nodup : component.Nodup
  mem_iff : ∀ v ∈ component, ∀ w, w ∈ component ↔ g.Mutual v w
  exists_root : ∃ root members, component = members.reverse ++ [root] ∧ g.LinkedFrom [root] members

end Digraph

namespace ComponentSearch

variable {g : Digraph} {s t : ComponentSearch} {trail more new seg : List Nat}
  {v w low bound bound' : Nat}

/-! ## Sound states -/

/-- What is known of a search whose open nodes are `trail`, the earliest visit first. -/
structure Sound (g : Digraph) (trail : List Nat) (s : ComponentSearch) : Prop where
  nodup : trail.Nodup
  next : s.next = trail.length
  mem_trail_iff : ∀ v, v ∈ trail ↔ ∃ low, s.mark v = .active low
  stack_subset : s.stack ⊆ trail
  low_le : ∀ k v low, trail[k]? = some v → s.mark v = .active low → low ≤ k
  leads : ∀ v low, s.mark v = .active low → ∃ w, trail[low]? = some w ∧ ReflTransGen g.Links v w
  closed : ∀ v w, s.mark v = .closed → g.Links v w → s.mark w = .closed
  mem_components_iff : ∀ v, v ∈ s.components.flatten ↔ s.mark v = .closed
  nodup_components : s.components.flatten.Nodup
  isComponent : ∀ c ∈ s.components, g.IsComponent c

/-- A search that has not begun is sound. -/
theorem sound_empty (g : Digraph) : Sound g [] {} := by
  constructor <;> simp

/-- A node that was not visited is not open. -/
theorem Sound.not_mem_of_unvisited (h : Sound g trail s) (hv : s.mark v = .unvisited) :
    v ∉ trail := by
  rw [h.mem_trail_iff, hv]
  rintro ⟨low, hlow⟩
  cases hlow

/-- What a closed node leads to is closed. -/
theorem Sound.closed_of_leads (h : Sound g trail s) (hv : s.mark v = .closed)
    (hpath : ReflTransGen g.Links v w) : s.mark w = .closed := by
  induction hpath with
  | refl => exact hv
  | tail _ hlink ih => exact h.closed _ _ ih hlink

/-- A state with the same marks is sound when its stack holds open nodes. -/
theorem Sound.with_stack (h : Sound g trail s) {stack : List Nat} (hsub : stack ⊆ trail) :
    Sound g trail { s with stack } :=
  { h with stack_subset := hsub }

/-! ## Edges that were looked at -/

/-- An edge to a node is accounted for by the number `low`: the node is closed, or it is open with
no smaller number. -/
def EdgeCounted (trail : List Nat) (s : ComponentSearch) (low w : Nat) : Prop :=
  s.mark w = .closed ∨ ∃ k, trail[k]? = some w ∧ low ≤ k

/-- An open node that is done waits for one with a smaller number: it carries a number that is
smaller than its own, not below `bound`, and that accounts for all of its edges. -/
def WaitsForEarlier (g : Digraph) (trail : List Nat) (s : ComponentSearch) (bound v : Nat) : Prop :=
  ∃ k low, trail[k]? = some v ∧ s.mark v = .active low ∧ bound ≤ low ∧ low < k ∧
    ∀ w, g.Links v w → EdgeCounted trail s low w

/-- A later state keeps the marks of all nodes that were visited. -/
def KeepsVisited (s t : ComponentSearch) : Prop := ∀ v, s.mark v ≠ .unvisited → t.mark v = s.mark v

theorem KeepsVisited.trans {u : ComponentSearch} (h : KeepsVisited s t) (h' : KeepsVisited t u) :
    KeepsVisited s u := by
  intro v hv
  have hkept := h v hv
  rw [h' v (by rwa [hkept]), hkept]

/-- A closed node stays closed. -/
theorem KeepsVisited.closed (h : KeepsVisited s t) (hv : s.mark v = .closed) :
    t.mark v = .closed := by
  rw [h v (by simp [hv]), hv]

/-- An open node keeps its number. -/
theorem KeepsVisited.active (h : KeepsVisited s t) (hv : s.mark v = .active low) :
    t.mark v = .active low := by
  rw [h v (by simp [hv]), hv]

/-- A node that is not visited later was not visited before. -/
theorem KeepsVisited.unvisited (h : KeepsVisited s t) (hv : t.mark v = .unvisited) :
    s.mark v = .unvisited := by
  refine Decidable.byContradiction fun hne => hne ?_
  rw [← h v hne, hv]

/-- A node keeps its place in a longer list. -/
theorem getElem?_append_some {k : Nat} (h : trail[k]? = some v) (more : List Nat) :
    (trail ++ more)[k]? = some v := by
  rw [List.getElem?_append_left (List.getElem?_eq_some_iff.mp h).1, h]

/-- An edge stays accounted for when more nodes are open and the number is smaller. -/
theorem EdgeCounted.mono (h : EdgeCounted trail s low w) (hkeeps : KeepsVisited s t) {low' : Nat}
    (hle : low' ≤ low)
    (more : List Nat) : EdgeCounted (trail ++ more) t low' w := by
  obtain hclosed | ⟨k, hk, hlow⟩ := h
  · exact .inl (hkeeps.closed hclosed)
  · exact .inr ⟨k, getElem?_append_some hk more, by omega⟩

/-- A node waits on when more nodes are open. -/
theorem WaitsForEarlier.mono (h : WaitsForEarlier g trail s bound v) (hkeeps : KeepsVisited s t)
    (hle : bound' ≤ bound)
    (more : List Nat) : WaitsForEarlier g (trail ++ more) t bound' v := by
  obtain ⟨k, low, hk, hmark, hbound, hlt, hnoted⟩ := h
  exact ⟨k, low, getElem?_append_some hk more, hkeeps.active hmark, by omega, hlt,
    fun w hlink => (hnoted w hlink).mono hkeeps (Nat.le_refl low) more⟩

/-! ## Exploring from a node -/

/-- What the visit of `v` has found so far.  It came from the state `s` to `t`, and `new` are the
nodes that are open since, `seg` their order on the stack. -/
structure VisitFinds (g : Digraph) (trail : List Nat) (s : ComponentSearch) (v bound : Nat)
    (t : ComponentSearch) (new seg : List Nat) : Prop where
  sound : Sound g (trail ++ v :: new) t
  unvisited : s.mark v = .unvisited
  keeps : KeepsVisited s t
  stack : t.stack = seg ++ s.stack
  perm : seg.Perm new
  hangs : g.LinkedFrom [v] seg
  leads : ∀ u ∈ new, ReflTransGen g.Links v u
  waits : ∀ u ∈ new, WaitsForEarlier g (trail ++ v :: new) t bound u

/-- A node has the number of nodes that were open before its visit. -/
theorem getElem?_visited : (trail ++ v :: new)[trail.length]? = some v := by simp

/-- An open node with a number that is not smaller than that of `v` is `v` or was visited
later. -/
theorem mem_of_length_le {k u : Nat} (hk : (trail ++ v :: new)[k]? = some u)
    (hle : trail.length ≤ k) : u ∈ v :: new := by
  rw [List.getElem?_append_right hle] at hk
  exact List.mem_of_getElem? hk

namespace VisitFinds

/-- What is open since the visit of `v` was not visited before. -/
theorem unvisited_of_mem (h : VisitFinds g trail s v bound t new seg) (h₀ : Sound g trail s)
    {u : Nat} (hu : u ∈ v :: new) : s.mark u = .unvisited := by
  obtain rfl | hu := List.mem_cons.mp hu
  · exact h.unvisited
  refine Decidable.byContradiction fun hne => ?_
  obtain ⟨k, low, -, hlow, -⟩ := h.waits u hu
  rw [h.keeps u hne] at hlow
  have hmem := (h₀.mem_trail_iff u).mpr ⟨low, hlow⟩
  exact (List.nodup_append.mp h.sound.nodup).2.2 u hmem u (List.mem_cons_of_mem v hu) rfl

end VisitFinds

/-! ## A component is complete -/

namespace VisitFinds

variable (h : VisitFinds g trail s v trail.length t new seg)
  (hmark : t.mark v = .active trail.length)
  (hnoted : ∀ w, g.Links v w → EdgeCounted (trail ++ v :: new) t trail.length w)

include h

/-- What waits leads back to `v`, as each of the numbers on the way is smaller. -/
theorem leads_back {u : Nat} (hu : u ∈ new) : ReflTransGen g.Links u v := by
  have hall : ∀ k u, (trail ++ v :: new)[k]? = some u → trail.length ≤ k →
      ReflTransGen g.Links u v := by
    intro k
    induction k using Nat.strongRecOn with
    | _ k ih =>
      intro u hk hle
      obtain rfl | hu := List.mem_cons.mp (mem_of_length_le hk hle)
      · exact .refl
      obtain ⟨k', low, hk', hlow, hbound, hlt, -⟩ := h.waits u hu
      have hsame : k' = k := by
        have hlen := (List.getElem?_eq_some_iff.mp hk').1
        exact (List.getElem?_inj hlen h.sound.nodup).mp (hk'.trans hk.symm)
      obtain ⟨w, hw, hpath⟩ := h.sound.leads u low hlow
      exact hpath.trans (ih low (by omega) w hw hbound)
  obtain ⟨k, low, hk, -, hbound, hlt, -⟩ := h.waits u hu
  exact hall k u hk (by omega)

include hnoted

/-- What `v` leads to is closed, or is about to be closed with it. -/
theorem closed_or_mem {u : Nat} (hpath : ReflTransGen g.Links v u) :
    t.mark u = .closed ∨ u ∈ v :: new := by
  have hstep : ∀ {low w}, trail.length ≤ low → EdgeCounted (trail ++ v :: new) t low w →
      t.mark w = .closed ∨ w ∈ v :: new := by
    rintro low w hle (hclosed | ⟨k, hk, hlow⟩)
    · exact .inl hclosed
    · exact .inr (mem_of_length_le hk (by omega))
  induction hpath with
  | refl => exact .inr List.mem_cons_self
  | @tail u w _ hlink ih =>
    obtain hclosed | hu := ih
    · exact .inl (h.sound.closed _ _ hclosed hlink)
    · obtain rfl | hu := List.mem_cons.mp hu
      · exact hstep (Nat.le_refl _) (hnoted w hlink)
      · obtain ⟨k, low, -, -, hbound, -, hwaits⟩ := h.waits u hu
        exact hstep hbound (hwaits w hlink)

include hmark

/-- A node that carries its own number and what waits above it are a component. -/
theorem isComponent : g.IsComponent (seg.reverse ++ [v]) := by
  have hmem : ∀ u, u ∈ seg.reverse ++ [v] ↔ u ∈ v :: new := fun u => by
    simp [h.perm.mem_iff, or_comm]
  -- all of them lead to `v` and back
  have hmutual : ∀ u, u ∈ v :: new → g.Mutual v u := by
    intro u hu
    obtain rfl | hu := List.mem_cons.mp hu
    · exact ⟨.refl, .refl⟩
    · exact ⟨h.leads u hu, h.leads_back hu⟩
  have hmaximal : ∀ u, g.Mutual v u → u ∈ v :: new := by
    intro u hu
    refine (h.closed_or_mem hnoted hu.1).resolve_left fun hclosed => ?_
    have hv := h.sound.closed_of_leads hclosed hu.2
    rw [hmark] at hv
    cases hv
  refine ⟨?_, fun u hu w => ?_, v, seg, rfl, h.hangs⟩
  · have hnodup := (List.nodup_append.mp h.sound.nodup).2.1
    refine ((List.reverse_perm seg).append_right [v]).nodup_iff.mpr ?_
    refine (List.perm_append_singleton v seg).nodup_iff.mpr ?_
    exact (h.perm.cons v).nodup_iff.mpr hnodup
  · have hvu := hmutual u ((hmem u).mp hu)
    rw [hmem]
    exact ⟨fun hw => hvu.symm.trans (hmutual w hw), fun hw => hmaximal w (hvu.trans hw)⟩

omit hnoted

/-- The nodes that are given out with `v` are those that wait above it. -/
theorem companions_eq (h₀ : Sound g trail s) : t.companions v = seg := by
  have habove : ∀ u ∈ seg, (!(t.mark u).isBelow (t.mark v)) = true := by
    intro u hu
    obtain ⟨k, low, -, hlow, hbound, -⟩ := h.waits u (h.perm.mem_iff.mp hu)
    simp [hlow, hmark, Mark.isBelow, hbound]
  have hbelow : ∀ u ∈ s.stack, (!(t.mark u).isBelow (t.mark v)) = false := by
    intro u hu
    obtain ⟨k, hk⟩ := List.mem_iff_getElem?.mp (h₀.stack_subset hu)
    obtain ⟨low, hlow⟩ := (h₀.mem_trail_iff u).mp (h₀.stack_subset hu)
    have hle := h₀.low_le k u low hk hlow
    have hlt := (List.getElem?_eq_some_iff.mp hk).1
    simp only [h.keeps.active hlow, hmark, Mark.isBelow, Bool.not_eq_false', decide_eq_true_eq]
    omega
  rw [companions, h.stack, List.takeWhile_append_of_pos habove]
  rcases hstack : s.stack with _ | ⟨u, rest⟩
  · simp
  · rw [List.takeWhile_cons_of_neg, List.append_nil]
    simp [hbelow u (by simp [hstack])]

/-- Closing changes nothing but the marks of the component, which is given out. -/
theorem close_eq (h₀ : Sound g trail s) : t.close v =
    { mark := fun u => if u ∈ v :: new then .closed else t.mark u
      next := trail.length
      stack := s.stack
      components := t.components ++ [seg.reverse ++ [v]] } := by
  have hnext : t.next - (seg.length + 1) = trail.length := by
    rw [h.sound.next, h.perm.length_eq, List.length_append, List.length_cons]
    omega
  have hmember : ∀ u, (u = v || seg.contains u) = true ↔ u ∈ v :: new := by
    simp [h.perm.mem_iff]
  simp only [close, h.companions_eq hmark h₀, hnext, h.stack, List.drop_left, hmember]

/-- The nodes that are given out are closed, and all others keep their marks. -/
theorem mark_close (h₀ : Sound g trail s) (u : Nat) :
    (t.close v).mark u = if u ∈ v :: new then .closed else t.mark u := by
  rw [h.close_eq hmark h₀]

/-- A node is closed when it was before, or is given out. -/
theorem mark_close_eq_closed_iff (h₀ : Sound g trail s) {u : Nat} :
    (t.close v).mark u = .closed ↔ t.mark u = .closed ∨ u ∈ v :: new := by
  rw [h.mark_close hmark h₀]
  split
  · next hu => simp only [hu, or_true]
  · next hu => simp only [hu, or_false]

/-- The nodes that stay open are those that were open before. -/
theorem mark_close_eq_active_iff (h₀ : Sound g trail s) {u low : Nat} :
    (t.close v).mark u = .active low ↔ u ∈ trail ∧ t.mark u = .active low := by
  rw [h.mark_close hmark h₀]
  split
  · next hu =>
    have hnot := h₀.not_mem_of_unvisited (h.unvisited_of_mem h₀ hu)
    simp [hnot]
  · next hu =>
    refine ⟨fun hlow => ⟨?_, hlow⟩, fun hlow => hlow.2⟩
    have hmem := (h.sound.mem_trail_iff u).mpr ⟨low, hlow⟩
    exact (List.mem_append.mp hmem).resolve_right hu

/-- The component was not visited before. -/
theorem keepsVisited_close (h₀ : Sound g trail s) : KeepsVisited s (t.close v) := by
  intro u hu
  rw [h.mark_close hmark h₀, if_neg, h.keeps u hu]
  exact fun hmem => hu (h.unvisited_of_mem h₀ hmem)

include hnoted

/-- Giving the component out leaves the nodes open that were so before. -/
theorem sound_close (h₀ : Sound g trail s) : Sound g trail (t.close v) := by
  have hactive : ∀ {u low}, (t.close v).mark u = .active low ↔
      u ∈ trail ∧ t.mark u = .active low := h.mark_close_eq_active_iff hmark h₀
  have hclosed : ∀ {u}, (t.close v).mark u = .closed ↔ t.mark u = .closed ∨ u ∈ v :: new :=
    h.mark_close_eq_closed_iff hmark h₀
  have hcomponents : (t.close v).components = t.components ++ [seg.reverse ++ [v]] := by
    rw [h.close_eq hmark h₀]
  have hmember : ∀ u, u ∈ seg.reverse ++ [v] ↔ u ∈ v :: new := fun u => by
    simp [h.perm.mem_iff, or_comm]
  have hlast := h.isComponent hmark hnoted
  exact {
    nodup := h₀.nodup
    next := by rw [h.close_eq hmark h₀]
    mem_trail_iff := fun u => by
      simp only [hactive, exists_and_left]
      refine ⟨fun hu => ⟨hu, ?_⟩, fun hu => hu.1⟩
      exact (h.sound.mem_trail_iff u).mp (List.mem_append_left _ hu)
    stack_subset := by
      rw [h.close_eq hmark h₀]
      exact h₀.stack_subset
    low_le := fun k u low hk hlow =>
      h.sound.low_le k u low (getElem?_append_some hk _) (hactive.mp hlow).2
    leads := fun u low hlow => by
      -- the number of an open node is that of a node before it, which is open as well
      obtain ⟨hu, hlow⟩ := hactive.mp hlow
      obtain ⟨k, hk⟩ := List.mem_iff_getElem?.mp hu
      have hle := h.sound.low_le k u low (getElem?_append_some hk _) hlow
      have hlt := (List.getElem?_eq_some_iff.mp hk).1
      obtain ⟨w, hw, hpath⟩ := h.sound.leads u low hlow
      rw [List.getElem?_append_left (by omega)] at hw
      exact ⟨w, hw, hpath⟩
    closed := fun u w hu hlink => by
      rw [hclosed] at hu ⊢
      obtain hu | hu := hu
      · exact .inl (h.sound.closed u w hu hlink)
      · have hvu : ReflTransGen g.Links v u := by
          obtain rfl | hu := List.mem_cons.mp hu
          · exact .refl
          · exact h.leads u hu
        exact h.closed_or_mem hnoted (hvu.tail hlink)
    mem_components_iff := fun u => by
      rw [hclosed, hcomponents, List.flatten_append, List.mem_append, h.sound.mem_components_iff,
        List.flatten_singleton, hmember]
    nodup_components := by
      rw [hcomponents, List.flatten_append, List.flatten_singleton, List.nodup_append]
      refine ⟨h.sound.nodup_components, hlast.nodup, ?_⟩
      rintro u hu _ hw rfl
      rw [h.sound.mem_components_iff] at hu
      obtain ⟨low, hlow⟩ := (h.sound.mem_trail_iff u).mp
        (List.mem_append_right _ ((hmember u).mp hw))
      rw [hlow] at hu
      cases hu
    isComponent := fun c hc => by
      rw [hcomponents] at hc
      obtain hc | hc := List.mem_append.mp hc
      · exact h.sound.isComponent c hc
      · rwa [List.mem_singleton.mp hc] }

end VisitFinds

/-! ## Looking at the edges of a node -/

/-- The visit of `v` has looked at the edges to some nodes.  The node carries `low`, and the flag
tells whether that is its own number. -/
structure EdgesExamined (g : Digraph) (trail : List Nat) (s : ComponentSearch) (v : Nat)
    (done : List Nat) (low : Nat) (state : ComponentSearch × Bool) (new seg : List Nat) : Prop
    extends VisitFinds g trail s v low state.1 new seg where
  mark : state.1.mark v = .active low
  own : state.2 = decide (low = trail.length)
  edgeCounted : ∀ w ∈ done, EdgeCounted (trail ++ v :: new) state.1 low w

/-- A node that is entered carries the number of nodes that were open. -/
theorem Sound.mark_enter (h : Sound g trail s) (u : Nat) :
    (s.enter v).mark u = if u = v then .active trail.length else s.mark u := by
  rw [← h.next]
  rfl

/-- Entering a node closes none. -/
theorem Sound.mark_enter_eq_closed_iff (h : Sound g trail s) (hv : s.mark v = .unvisited)
    {u : Nat} :
    (s.enter v).mark u = .closed ↔ s.mark u = .closed := by
  rw [h.mark_enter]
  split
  · next hu => simp [hu, hv]
  · rfl

/-- Entering a node opens it after all others. -/
theorem Sound.enter (h : Sound g trail s) (hv : s.mark v = .unvisited) :
    Sound g (trail ++ [v]) (s.enter v) where
  nodup := (List.perm_append_singleton v trail).nodup_iff.mpr
    (List.nodup_cons.mpr ⟨h.not_mem_of_unvisited hv, h.nodup⟩)
  next := by simp [ComponentSearch.enter, h.next]
  mem_trail_iff u := by
    rw [List.mem_append, List.mem_singleton, h.mark_enter, h.mem_trail_iff]
    split
    · next hu => simp [hu]
    · next hu => simp [hu]
  stack_subset _ hu := List.mem_append_left _ (h.stack_subset hu)
  low_le k u low hk hlow := by
    rw [h.mark_enter] at hlow
    obtain hk' | hk' := Nat.lt_or_ge k trail.length
    · rw [List.getElem?_append_left hk'] at hk
      have hu : u ≠ v := fun heq => h.not_mem_of_unvisited hv (heq ▸ List.mem_of_getElem? hk)
      rw [if_neg hu] at hlow
      exact h.low_le k u low hk hlow
    · rw [List.getElem?_append_right hk'] at hk
      rw [if_pos (List.mem_singleton.mp (List.mem_of_getElem? hk))] at hlow
      cases hlow
      exact hk'
  leads u low hlow := by
    rw [h.mark_enter] at hlow
    split at hlow
    · next hu =>
      cases hlow
      exact ⟨u, by simp [hu], .refl⟩
    · obtain ⟨w, hw, hpath⟩ := h.leads u low hlow
      exact ⟨w, getElem?_append_some hw _, hpath⟩
  closed u w hu hlink := by
    rw [h.mark_enter_eq_closed_iff hv] at hu ⊢
    exact h.closed u w hu hlink
  mem_components_iff u := by
    rw [h.mark_enter_eq_closed_iff hv]
    exact h.mem_components_iff u
  nodup_components := h.nodup_components
  isComponent := h.isComponent

/-- A visit begins with the number of nodes that are open. -/
theorem edgesExamined_enter (h₀ : Sound g trail s) (hv : s.mark v = .unvisited) :
    EdgesExamined g trail s v [] trail.length (s.enter v, true) [] [] where
  sound := h₀.enter hv
  unvisited := hv
  keeps u hu := by
    rw [h₀.mark_enter, if_neg]
    exact fun heq => hu (heq ▸ hv)
  stack := rfl
  perm := .refl _
  hangs := trivial
  leads := by simp
  waits := by simp
  mark := by simp [h₀.mark_enter]
  own := by simp
  edgeCounted := by simp

/-- Another number for an open node closes no node and opens none. -/
theorem closed_setMark_iff (hmark : t.mark v = .active low) {low' u : Nat} :
    (t.setMark v (.active low')).mark u = .closed ↔ t.mark u = .closed := by
  by_cases hu : u = v <;> simp [setMark, hu, hmark]

/-- An open node may take over the number of a node that it leads to. -/
theorem Sound.setMark (h : Sound g trail s) (hmark : s.mark v = .active low) (hlink : g.Links v w)
    {low' : Nat} (hw : s.mark w = .active low') (hle : low' ≤ low) :
    Sound g trail (s.setMark v (.active low')) := by
  have hself : (s.setMark v (.active low')).mark v = .active low' := if_pos rfl
  have hother : ∀ u, u ≠ v → (s.setMark v (.active low')).mark u = s.mark u := fun u hu => if_neg hu
  exact { h with
    mem_trail_iff := fun u => by
      by_cases hu : u = v
      · simp [hu, hself, h.mem_trail_iff, hmark]
      · rw [hother u hu, h.mem_trail_iff]
    low_le := fun k u l hk hl => by
      by_cases hu : u = v
      · rw [hu, hself] at hl
        cases hl
        exact Nat.le_trans hle (h.low_le k v low (hu ▸ hk) hmark)
      · rw [hother u hu] at hl
        exact h.low_le k u l hk hl
    leads := fun u l hl => by
      by_cases hu : u = v
      · rw [hu, hself] at hl
        cases hl
        obtain ⟨x, hx, hpath⟩ := h.leads w low' hw
        exact ⟨x, hx, hu ▸ .head hlink hpath⟩
      · rw [hother u hu] at hl
        exact h.leads u l hl
    closed := fun u x hu hux => by
      rw [closed_setMark_iff hmark] at hu ⊢
      exact h.closed u x hu hux
    mem_components_iff := fun u => by
      rw [closed_setMark_iff hmark]
      exact h.mem_components_iff u }

namespace VisitFinds

/-- What is known to wait above a number waits above a smaller one. -/
theorem weaken (h : VisitFinds g trail s v bound t new seg) (hle : bound' ≤ bound) :
    VisitFinds g trail s v bound' t new seg :=
  { h with
    waits := fun u hu => by
      have hwaits := (h.waits u hu).mono (fun _ _ => rfl) hle []
      rwa [List.append_nil] at hwaits }

/-- A node takes over the smaller number of an open node that an edge leads to. -/
theorem lower (h : VisitFinds g trail s v bound t new seg) (hmark : t.mark v = .active low)
    (hlink : g.Links v w) {low' : Nat} (hw : t.mark w = .active low') (hlt : low' < low) :
    VisitFinds g trail s v bound (t.setMark v (.active low')) new seg := by
  have hother : ∀ u, u ≠ v → (t.setMark v (.active low')).mark u = t.mark u := fun u hu => if_neg hu
  have hv : v ∉ new := by
    have hnodup := (List.nodup_append.mp h.sound.nodup).2.1
    exact (List.nodup_cons.mp hnodup).1
  exact { h with
    sound := h.sound.setMark hmark hlink hw (Nat.le_of_lt hlt)
    keeps := fun u hu => by
      rw [hother u fun heq => hu (heq ▸ h.unvisited), h.keeps u hu]
    waits := fun u hu => by
      obtain ⟨k, l, hk, hl, hbound, hlt', hedges⟩ := h.waits u hu
      refine ⟨k, l, hk, ?_, hbound, hlt', fun x hx =>
        (hedges x hx).imp_left (closed_setMark_iff hmark).mpr⟩
      rw [hother u fun heq => hv (heq ▸ hu), hl] }

/-- After an edge was followed, the number of its target is taken into account. -/
theorem relax {done : List Nat} {own : Bool} (h : VisitFinds g trail s v (min low bound) t new seg)
    (hmark : t.mark v = .active low) (hown : own = decide (low = trail.length))
    (hdone : ∀ u ∈ done, EdgeCounted (trail ++ v :: new) t low u) (hlink : g.Links v w)
    (hw : t.mark w = .closed ∧ low ≤ bound ∨ t.mark w = .active bound) :
    EdgesExamined g trail s v (w :: done) (min low bound) (ComponentSearch.relax v w (t, own)) new
      seg := by
  have hlow : low ≤ trail.length := h.sound.low_le _ v low getElem?_visited hmark
  obtain ⟨hclosed, hle⟩ | hactive := hw
  · have heq : ComponentSearch.relax v w (t, own) = (t, own) := by
      simp [ComponentSearch.relax, hclosed, Mark.isBelow]
    rw [heq]
    rw [Nat.min_eq_left hle] at h ⊢
    refine { h with mark := hmark, own := hown, edgeCounted := fun u hu => ?_ }
    obtain rfl | hu := List.mem_cons.mp hu
    · exact .inl hclosed
    · exact hdone u hu
  obtain ⟨k, hk⟩ := List.mem_iff_getElem?.mp ((h.sound.mem_trail_iff w).mpr ⟨bound, hactive⟩)
  have hbound := h.sound.low_le k w bound hk hactive
  by_cases hlt : bound < low
  · have heq : ComponentSearch.relax v w (t, own) = (t.setMark v (.active bound), false) := by
      simp [ComponentSearch.relax, hactive, hmark, Mark.isBelow, hlt]
    rw [heq]
    rw [Nat.min_eq_right (Nat.le_of_lt hlt)] at h ⊢
    refine { h.lower hmark hlink hactive hlt with
      mark := if_pos rfl
      own := (decide_eq_false (by omega)).symm
      edgeCounted := fun u hu => ?_ }
    obtain rfl | hu := List.mem_cons.mp hu
    · exact .inr ⟨k, hk, hbound⟩
    · obtain hu | ⟨k', hk', hle⟩ := hdone u hu
      · exact .inl ((closed_setMark_iff hmark).mpr hu)
      · exact .inr ⟨k', hk', by omega⟩
  · have heq : ComponentSearch.relax v w (t, own) = (t, own) := by
      simp [ComponentSearch.relax, hactive, hmark, Mark.isBelow, hlt]
    rw [heq]
    rw [Nat.min_eq_left (by omega)] at h ⊢
    refine { h with mark := hmark, own := hown, edgeCounted := fun u hu => ?_ }
    obtain rfl | hu := List.mem_cons.mp hu
    · exact .inr ⟨k, hk, by omega⟩
    · exact hdone u hu

section Leave

variable {low' : Nat} {state : ComponentSearch × Bool} {new' seg' : List Nat}
  (child : EdgesExamined g (trail ++ v :: new) t w (g.successors w) low' state new' seg')

include child

/-- A node that still has its own number closes with its component. -/
theorem leave_closed (h : VisitFinds g trail s v low t new seg)
    (hown : low' = (trail ++ v :: new).length) :
    VisitFinds g trail s v low (leave w state) new seg ∧ KeepsVisited t (leave w state) ∧
      (leave w state).mark w = .closed := by
  subst hown
  have hnoted : ∀ x, g.Links w x →
      EdgeCounted ((trail ++ v :: new) ++ w :: new') state.1 (trail ++ v :: new).length x :=
    fun x hx => child.edgeCounted x (Digraph.mem_successors.mpr hx)
  have heq : leave w state = state.1.close w := by simp [leave, child.own]
  have hkeeps := child.keepsVisited_close child.mark h.sound
  have hclose := child.close_eq child.mark h.sound
  rw [heq]
  refine ⟨{ h with
    sound := child.sound_close child.mark hnoted h.sound
    keeps := h.keeps.trans hkeeps
    stack := by rw [hclose]; exact h.stack
    waits := fun u hu => ?_ }, hkeeps, ?_⟩
  · have hwaits := (h.waits u hu).mono hkeeps (Nat.le_refl low) []
    rwa [List.append_nil] at hwaits
  · rw [hclose]
    exact if_pos List.mem_cons_self

/-- A node with a smaller number than its own waits above what waited before. -/
theorem leave_waiting (h : VisitFinds g trail s v low t new seg) (hlink : g.Links v w)
    (hown : low' < (trail ++ v :: new).length) :
    VisitFinds g trail s v (min low low') (leave w state) (new ++ w :: new') (w :: seg' ++ seg) ∧
      KeepsVisited t (leave w state) ∧ (leave w state).mark w = .active low' := by
  have hflag : state.2 = false := by rw [child.own, decide_eq_false (Nat.ne_of_lt hown)]
  have heq : leave w state = { state.1 with stack := w :: state.1.stack } := by
    simp [leave, hflag]
  have hassoc : trail ++ v :: (new ++ w :: new') = (trail ++ v :: new) ++ w :: new' := by simp
  have hsame : KeepsVisited state.1 (leave w state) := fun u _ => by rw [heq]
  have hkeeps : KeepsVisited t (leave w state) := child.keeps.trans hsame
  refine ⟨{ h with
    sound := ?_
    keeps := h.keeps.trans hkeeps
    stack := by simp [heq, child.stack, h.stack]
    perm := ((child.perm.cons w).append h.perm).trans List.perm_append_comm
    hangs := ?_
    leads := fun u hu => ?_
    waits := fun u hu => ?_ }, hkeeps, hsame.active child.mark⟩
  · rw [hassoc, heq]
    exact child.sound.with_stack (List.cons_subset.mpr ⟨by simp, child.sound.stack_subset⟩)
  · have hw : g.LinkedFrom [v] (w :: seg') :=
      ⟨⟨v, List.mem_singleton_self v, hlink⟩, child.hangs.mono (by simp)⟩
    exact hw.append h.hangs
  · obtain hu | hu := List.mem_append.mp hu
    · exact h.leads u hu
    obtain rfl | hu := List.mem_cons.mp hu
    · exact .single hlink
    · exact .head hlink (child.leads u hu)
  · rw [hassoc]
    obtain hu | hu := List.mem_append.mp hu
    · exact (h.waits u hu).mono hkeeps (Nat.min_le_left low low') _
    obtain rfl | hu := List.mem_cons.mp hu
    · refine ⟨_, low', getElem?_visited, hsame.active child.mark, Nat.min_le_right low low', hown,
        fun x hx => ?_⟩
      have hx := (child.edgeCounted x (Digraph.mem_successors.mpr hx)).mono hsame (Nat.le_refl low')
        []
      rwa [List.append_nil] at hx
    · have hwaits := (child.waits u hu).mono hsame (Nat.min_le_right low low') []
      rwa [List.append_nil] at hwaits

/-- A node that was visited from `v` closes with its component, or waits above `v` for a node with
a smaller number. -/
theorem visit (h : VisitFinds g trail s v low t new seg) (hlink : g.Links v w) :
    ∃ bound more above, VisitFinds g trail s v (min low bound) (leave w state) (new ++ more)
        (above ++ seg) ∧ KeepsVisited t (leave w state) ∧
      ((leave w state).mark w = .closed ∧ low ≤ bound ∨
        (leave w state).mark w = .active bound) := by
  have hle : low' ≤ (trail ++ v :: new).length :=
    child.sound.low_le _ w low' getElem?_visited child.mark
  obtain hown | hown := Nat.eq_or_lt_of_le hle
  · obtain ⟨hfinds, hkeeps, hclosed⟩ := h.leave_closed child hown
    refine ⟨low, [], [], ?_, hkeeps, .inl ⟨hclosed, Nat.le_refl low⟩⟩
    rwa [Nat.min_self, List.append_nil]
  · obtain ⟨hfinds, hkeeps, hactive⟩ := h.leave_waiting child hlink hown
    exact ⟨low', w :: new', w :: seg', hfinds, hkeeps, .inr hactive⟩

end Leave

end VisitFinds

namespace EdgesExamined

variable {done : List Nat} {state : ComponentSearch × Bool}

/-- Looking at an edge to a node that was visited already. -/
theorem cons_visited (h : EdgesExamined g trail s v done low state new seg) (hlink : g.Links v w)
    (hw : state.1.mark w ≠ .unvisited) :
    ∃ low', EdgesExamined g trail s v (w :: done) low' (relax v w state) new seg := by
  cases hmark : state.1.mark w with
  | unvisited => exact absurd hmark hw
  | closed =>
    have hsame : VisitFinds g trail s v (min low low) state.1 new seg := by
      rw [Nat.min_self]
      exact h.toVisitFinds
    exact ⟨_, hsame.relax h.mark h.own h.edgeCounted hlink (.inl ⟨hmark, Nat.le_refl low⟩)⟩
  | active bound =>
    have hweak := h.toVisitFinds.weaken (Nat.min_le_left low bound)
    exact ⟨_, hweak.relax h.mark h.own h.edgeCounted hlink (.inr hmark)⟩

/-- Looking at an edge to a node that is visited along it. -/
theorem cons_visit (h : EdgesExamined g trail s v done low state new seg) (hlink : g.Links v w)
    {low' : Nat} {state' : ComponentSearch × Bool} {new' seg' : List Nat}
    (child : EdgesExamined g (trail ++ v :: new) state.1 w (g.successors w) low' state' new' seg') :
    ∃ low'' new'' seg'',
      EdgesExamined g trail s v (w :: done) low''
        (relax v w (leave w state', state.2)) new'' seg'' := by
  obtain ⟨bound, more, above, hfinds, hkeeps, hmark⟩ := h.toVisitFinds.visit child hlink
  refine ⟨_, _, _, hfinds.relax (hkeeps.active h.mark) h.own (fun u hu => ?_) hlink hmark⟩
  have hnoted := (h.edgeCounted u hu).mono hkeeps (Nat.le_refl low) more
  rwa [List.append_assoc, List.cons_append] at hnoted

end EdgesExamined

/-! ## The whole visit -/

/-- The number of nodes that were not visited. -/
def room (g : Digraph) (s : ComponentSearch) : Nat :=
  (g.nodes.filter (s.mark · = .unvisited)).length

/-- A node that was visited leaves less room. -/
theorem room_lt (hkeeps : KeepsVisited s t) (hv : v < g.order) (hs : s.mark v = .unvisited)
    (ht : t.mark v ≠ .unvisited) : room g t < room g s := by
  have hfilter : g.nodes.filter (t.mark · = .unvisited) =
      (g.nodes.filter (s.mark · = .unvisited)).filter (t.mark · = .unvisited) := by
    rw [List.filter_filter]
    refine List.filter_congr fun u _ => ?_
    by_cases hu : t.mark u = .unvisited
    · simp [hu, hkeeps.unvisited hu]
    · simp [hu]
  rw [room, room, hfilter, List.length_filter_lt_length_iff_exists]
  exact ⟨v, List.mem_filter.mpr ⟨Digraph.mem_nodes.mpr hv, by simpa using hs⟩, by simpa using ht⟩

/-- A visit that has enough room ahead looks at all edges of the node before it is left. -/
theorem visit_spec (hg : g.Bounded) {depth : Nat} (h₀ : Sound g trail s)
    (hs : s.mark v = .unvisited) (hv : v < g.order) (hroom : room g s ≤ depth) :
    ∃ low state new seg, EdgesExamined g trail s v (g.successors v) low state new seg ∧
      visit g depth v s = leave v state := by
  induction depth generalizing trail s v with
  | zero =>
    have hmem : v ∈ g.nodes.filter (s.mark · = .unvisited) :=
      List.mem_filter.mpr ⟨Digraph.mem_nodes.mpr hv, by simpa using hs⟩
    have hpos := List.length_pos_of_mem hmem
    unfold room at hroom
    omega
  | succ depth ih =>
    rw [visit_succ]
    -- the edges are looked at one by one, from the last
    suffices hedges : ∀ targets ⊆ g.successors v, ∃ low new seg,
        EdgesExamined g trail s v targets low (targets.foldr
          (fun w state => relax v w (if state.1.mark w = .unvisited then
            (visit g depth w state.1, state.2) else state)) (s.enter v, true)) new seg by
      obtain ⟨low, new, seg, hall⟩ := hedges _ (List.Subset.refl _)
      exact ⟨low, _, new, seg, hall, rfl⟩
    intro targets hsub
    induction targets with
    | nil => exact ⟨_, _, _, edgesExamined_enter h₀ hs⟩
    | cons w rest ihrest =>
      obtain ⟨hw, hrest⟩ := List.cons_subset.mp hsub
      have hlink := Digraph.mem_successors.mp hw
      obtain ⟨low, new, seg, hsofar⟩ := ihrest hrest
      rw [List.foldr_cons]
      split
      · next hunvisited =>
        have hless := room_lt hsofar.keeps hv hs (by simp [hsofar.mark])
        obtain ⟨low', state', new', seg', hchild, heq⟩ :=
          ih hsofar.sound hunvisited (hg v w hlink).2 (by omega)
        rw [heq]
        exact hsofar.cons_visit hlink hchild
      · next hvisited =>
        obtain ⟨low', hdone⟩ := hsofar.cons_visited hlink hvisited
        exact ⟨low', new, seg, hdone⟩

end ComponentSearch
end StatementForest
