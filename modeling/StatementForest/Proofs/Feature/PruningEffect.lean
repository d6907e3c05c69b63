import StatementForest.Proofs.Feature.PruningSuccess
import StatementForest.Schema.Basic

/-!
# What pruning takes out

Pruning goes down from the top of a tree.  It looks at the children of every statement it
comes to, takes out those whose conditions do not hold, passes over features, and goes on
with the others.  What it finds at a statement depends on the subtree of that statement
only, so the order in which trees and siblings are looked at does not matter.

Main results:

- Theorem `FeatureRegistry.pruneChildren_spec`: what becomes of the children of a statement.
- Theorem `FeatureRegistry.pruneWithin_spec`: what becomes of everything below a statement,
  by induction on the levels that are left.
- Theorem `FeatureRegistry.pruneTrees_spec`: what becomes of all trees.
-/

namespace StatementForest

open Store

/-! ## Stores that agree about a subtree -/

/-- Two stores have the same statements below a statement of the first one. -/
def Store.SameBelow (s t : Store) (top : NodeId) : Prop := ∀ x, s.Below top x → t.get? x = s.get? x

namespace Store.SameBelow

variable {s t u : Store} {top x : NodeId}

/-- What is the same below a statement is the same below each statement there. -/
theorem below (h : s.SameBelow t top) (hx : s.Below top x) : s.SameBelow t x :=
  fun y hy => h y (hx.trans hy)

/-- A statement below has the same parent in both stores. -/
theorem parentOf (h : s.SameBelow t top) (hx : s.Below top x) : t.parentOf x = s.parentOf x := by
  rw [Store.parentOf, Store.parentOf, h x hx]

/-- A statement below has the same children in both stores. -/
theorem childrenOf (h : s.SameBelow t top) (hx : s.Below top x) :
    t.childrenOf x = s.childrenOf x := by
  rw [Store.childrenOf, Store.childrenOf, h x hx]

/-- What stands below stands below in the other store, too. -/
theorem below_of_below (h : s.SameBelow t top) (hx : s.Below top x) : t.Below top x := by
  induction hx with
  | self => exact .self
  | @under y p hp hbelow ih =>
    refine .under ?_ ih
    rw [h.parentOf (.under hp hbelow), hp]

/-- Below the statement there is nothing else in the second store, whose children and
parents agree as well. -/
theorem below_iff (h : s.SameBelow t top) (ws : s.Wired) (wt : t.Wired) :
    t.Below top x ↔ s.Below top x := by
  refine ⟨fun hx => ?_, h.below_of_below⟩
  induction hx with
  | self => exact .self
  | under hp _ ih =>
    have hchild := wt.mem_of_parentOf hp
    rw [h.childrenOf ih] at hchild
    exact .under (ws.parentOf_of_mem hchild) ih

theorem symm (h : s.SameBelow t top) (ws : s.Wired) (wt : t.Wired) : t.SameBelow s top :=
  fun x hx => (h x ((h.below_iff ws wt).mp hx)).symm

/-- The children of a keyword are the same, because the children themselves are. -/
theorem childrenOfKeyword (h : s.SameBelow t x) (ws : s.Wired) (k : Keyword) :
    t.childrenOfKeyword x k = s.childrenOfKeyword x k := by
  rw [Store.childrenOfKeyword, Store.childrenOfKeyword, childrenWhere, childrenWhere,
    h.childrenOf .self]
  refine List.filter_congr fun c hc => ?_
  rw [h c (below_of_parentOf (ws.parentOf_of_mem hc))]

/-- The children of a keyword below are the same statements in both stores. -/
theorem get?_of_mem_childrenOfKeyword (h : s.SameBelow t x) (ws : s.Wired) {k : Keyword}
    {c : NodeId} (hc : c ∈ s.childrenOfKeyword x k) : t.get? c = s.get? c :=
  h c (below_of_parentOf (ws.parentOf_of_mem (List.mem_of_mem_filter hc)))

end Store.SameBelow

/-! ## What is found at a statement -/

namespace FeatureRegistry

/-- Whether a statement defines a feature. -/
def isFeature (s : Store) (x : NodeId) : Bool := (s.get? x).any (·.isKeyword .feature)

/-- Whether a statement is taken out when it is looked at. -/
def excludes (r : FeatureRegistry) (s : Store) (x : NodeId) : Bool :=
  !isFeature s x && !r.admits s x

/-- Whether pruning goes on below a statement when it has looked at it. -/
def enters (r : FeatureRegistry) (s : Store) (x : NodeId) : Bool :=
  !isFeature s x && r.admits s x

/-- The findings that are made when a statement is looked at. -/
def visitFindings (s : Store) (x : NodeId) : List Finding :=
  if isFeature s x then [] else conditionFindings s x

/-- Keep the name of a removed child among the data of a statement. -/
def noteRemoved (data : Dictionary CustomValue) (name : String) : Dictionary CustomValue :=
  match data.find? removedData with
  | some (.list items) => data.insert removedData (.list (items ++ [.text name]))
  | _ => data.insert removedData (.list [.text name])

/-- The name that a parent keeps of a child. -/
def removedNameOf? (s : Store) (x : NodeId) : Option String := (s.get? x).map removedName

/-- A statement after some of its children have been looked at. -/
def cutBack (r : FeatureRegistry) (s : Store) (children : List NodeId) (n : Node) : Node :=
  { n with
    children := n.children.filter fun c => !(children.contains c && r.excludes s c)
    data := ((children.filter (r.excludes s)).filterMap (removedNameOf? s)).foldl noteRemoved
      n.data }

/-- The name of a removed child is added to the data of a statement. -/
theorem pushData_removed (n : Node) (name : String) :
    n.pushData removedData (.text name) = { n with data := noteRemoved n.data name } := by
  unfold Node.pushData noteRemoved
  rcases n.data.find? removedData with _ | _ | _ | _ | _ | _ <;> rfl

variable {r : FeatureRegistry} {s t u : Store} {parent child x : NodeId}

/-! ### Features and other statements -/

/-- A feature is never taken out. -/
theorem excludes_of_isFeature (h : isFeature s x = true) : r.excludes s x = false := by
  rw [excludes, h]
  rfl

/-- Pruning does not go on below a feature. -/
theorem enters_of_isFeature (h : isFeature s x = true) : r.enters s x = false := by
  rw [enters, h]
  rfl

/-- Looking at a feature makes no finding. -/
theorem visitFindings_of_isFeature (h : isFeature s x = true) : visitFindings s x = [] :=
  if_pos h

/-- Any other statement is taken out when its conditions do not hold. -/
theorem excludes_of_not_isFeature (h : isFeature s x = false) :
    r.excludes s x = !r.admits s x := by
  rw [excludes, h]
  rfl

/-- Pruning goes on below any other statement when its conditions hold. -/
theorem enters_of_not_isFeature (h : isFeature s x = false) : r.enters s x = r.admits s x := by
  rw [enters, h]
  rfl

/-- Looking at any other statement makes the findings about its conditions. -/
theorem visitFindings_of_not_isFeature (h : isFeature s x = false) :
    visitFindings s x = conditionFindings s x := by
  rw [visitFindings, h, if_neg Bool.false_ne_true]

/-- A statement without conditions stays, and nothing is found at it. -/
theorem admits_of_unconditional (h : s.childrenOfKeyword x .ifFeature = []) :
    r.admits s x = true ∧ conditionFindings s x = [] := by
  rw [admits, conditionsOf, conditionFindings, h]
  exact ⟨rfl, rfl⟩

/-! ### The same is found where stores agree -/

/-- The conditions of a statement are the same in stores that are the same below it. -/
theorem conditionsOf_congr (h : s.SameBelow t x) (ws : s.Wired) :
    t.conditionsOf x = s.conditionsOf x := by
  rw [conditionsOf, conditionsOf, h.childrenOfKeyword ws]
  refine List.filterMap_congr fun c hc => ?_
  rw [h.get?_of_mem_childrenOfKeyword ws hc]

theorem conditionFindings_congr (h : s.SameBelow t x) (ws : s.Wired) :
    conditionFindings t x = conditionFindings s x := by
  rw [conditionFindings, conditionFindings, h.childrenOfKeyword ws]
  refine List.flatMap_congr fun c hc => ?_
  rw [h.get?_of_mem_childrenOfKeyword ws hc]

theorem isFeature_congr (h : s.SameBelow t x) : isFeature t x = isFeature s x := by
  rw [isFeature, isFeature, h x .self]

theorem excludes_congr (h : s.SameBelow t x) (ws : s.Wired) : r.excludes t x = r.excludes s x := by
  rw [excludes, excludes, isFeature_congr h, admits, admits, conditionsOf_congr h ws]

theorem enters_congr (h : s.SameBelow t x) (ws : s.Wired) : r.enters t x = r.enters s x := by
  rw [enters, enters, isFeature_congr h, admits, admits, conditionsOf_congr h ws]

theorem visitFindings_congr (h : s.SameBelow t x) (ws : s.Wired) :
    visitFindings t x = visitFindings s x := by
  rw [visitFindings, visitFindings, isFeature_congr h, conditionFindings_congr h ws]

/-- What is left of a statement is the same in stores that are the same below its children. -/
theorem cutBack_congr {children : List NodeId} {n : Node} (ws : s.Wired)
    (h : ∀ c ∈ children, s.SameBelow t c) : r.cutBack t children n = r.cutBack s children n := by
  have hexcludes : ∀ c ∈ children, r.excludes t c = r.excludes s c := fun c hc =>
    excludes_congr (h c hc) ws
  have hfilter : children.filter (r.excludes t) = children.filter (r.excludes s) :=
    List.filter_congr hexcludes
  have hnames : (children.filter (r.excludes s)).filterMap (removedNameOf? t) =
      (children.filter (r.excludes s)).filterMap (removedNameOf? s) := by
    refine List.filterMap_congr fun c hc => ?_
    rw [removedNameOf?, removedNameOf?, h c (List.mem_of_mem_filter hc) c .self]
  have hchildren : (n.children.filter fun c => !(children.contains c && r.excludes t c)) =
      n.children.filter fun c => !(children.contains c && r.excludes s c) := by
    refine List.filter_congr fun c _ => ?_
    by_cases hc : c ∈ children
    · rw [hexcludes c hc]
    · rw [List.contains_eq_mem, decide_eq_false hc, Bool.false_and, Bool.false_and]
  rw [cutBack, cutBack, hfilter, hnames, hchildren]

/-! ## The children of a statement -/

/-- Some children of a statement have been looked at. -/
structure ChildrenPruned (r : FeatureRegistry) (p : NodeId) (children : List NodeId)
    (s t : Store) : Prop where
  size : t.slots.size = s.slots.size
  trees : t.trees = s.trees
  removed : ∀ c ∈ children, r.excludes s c = true → ∀ x, s.Below c x → t.get? x = none
  parent : t.get? p = (s.get? p).map (r.cutBack s children)
  other : ∀ x, x ≠ p → (∀ c ∈ children, r.excludes s c = true → ¬ s.Below c x) →
    t.get? x = s.get? x

/-- A statement stays as it is when none of its children is taken out. -/
theorem cutBack_eq_self {children : List NodeId} {n : Node}
    (h : ∀ c ∈ children, r.excludes s c = false) : r.cutBack s children n = n := by
  have hnone : children.filter (r.excludes s) = [] := by
    rw [List.filter_eq_nil_iff]
    intro c hc
    rw [h c hc]
    exact Bool.false_ne_true
  have hall : (n.children.filter fun c => !(children.contains c && r.excludes s c)) =
      n.children := by
    rw [List.filter_eq_self]
    intro c _
    by_cases hc : c ∈ children
    · rw [h c hc, Bool.and_false]
      rfl
    · rw [List.contains_eq_mem, decide_eq_false hc]
      rfl
  rw [cutBack, hnone, hall]
  rfl

/-- Looking at children of which none is taken out changes nothing. -/
theorem ChildrenPruned.of_kept {children : List NodeId}
    (h : ∀ c ∈ children, r.excludes s c = false) :
    ChildrenPruned r parent children s s where
  size := rfl
  trees := rfl
  removed c hc hex := by
    rw [h c hc] at hex
    cases hex
  parent := by
    have hself : r.cutBack s children = id := funext fun n => cutBack_eq_self h
    rw [hself, Option.map_id, id_eq]
  other _ _ _ := rfl

/-- Looking at a child that is not taken out changes nothing. -/
theorem ChildrenPruned.of_kept_child (h : r.excludes s child = false) :
    ChildrenPruned r parent [child] s s :=
  .of_kept fun c hc => by rwa [List.mem_singleton.mp hc]

/-- A parent without a child that is taken out keeps its name. -/
theorem cutBack_singleton {n p : Node} (hex : r.excludes s child = true)
    (hn : s.get? child = some n) (hnodup : p.children.Nodup) :
    r.cutBack s [child] p = { p with
      children := p.children.erase child
      data := noteRemoved p.data (removedName n) } := by
  have hfilter : (p.children.filter fun c => !([child].contains c && r.excludes s c)) =
      p.children.erase child := by
    rw [hnodup.erase_eq_filter]
    refine List.filter_congr fun c _ => ?_
    by_cases hc : c = child
    · rw [hc, hex]
      simp
    · simp [hc]
  rw [cutBack, hfilter, List.filter_cons_of_pos hex, List.filter_nil]
  simp [removedNameOf?, hn]

/-- A child is taken out with all below it, and its parent keeps its name. -/
theorem takeOut_spec (o : s.Owned) (h : s.parentOf child = some parent)
    (hex : r.excludes s child = true) :
    Succeeds (takeOut parent child) s fun _ t => ChildrenPruned r parent [child] s t := by
  obtain ⟨n, hn⟩ := contains_iff.mp (contains_of_parentOf h)
  obtain ⟨index, hindex⟩ := Option.isSome_iff_exists.mp
    (List.isSome_idxOf?.mpr (o.wired.mem_of_parentOf h))
  have hlink := relinked_unlink s parent child index
  have hlive : (s.unlink parent child index).contains child = true := by
    rw [hlink.contains, contains_of_parentOf h]
  have htop : (s.unlink parent child index).isTop child = false := by
    rw [hlink.isTop, o.rooted.not_isTop_of_parentOf h]
  have hne : parent ≠ child := by
    rintro rfl
    exact (o.wired.grounded _).not_below_parent h .self
  have hout : ¬ s.Below child parent := (o.wired.grounded parent).not_below_parent h
  apply Yields.bind_of_eq (StoreM.node_apply hn)
  apply Yields.bind_of_eq (StoreM.removeChild_apply hindex (contains_of_parentOf h))
  refine Yields.bind (StoreM.discardSubtree_succeeds (o.unlink hindex) hlive hlink.parentOf_self
    htop) ?_
  intro _ t ⟨_, ht⟩
  -- before the name is noted, the parent has lost the child and nothing else
  obtain ⟨p, hp⟩ := contains_iff.mp (o.wired.contains_parent h)
  have hchildren : s.childrenOf parent = p.children := childrenOf_of_get? hp
  have hcut : t.get? parent = some { p with children := p.children.erase child } := by
    rw [ht.get?_of_not_below parent (fun hb => hout (hlink.below_iff.mp hb)), Store.unlink,
      get?_update_of_ne _ _ hne, get?_update_self, hp, Option.map_some]
    rw [hchildren] at hindex
    rw [List.erase_eq_eraseIdx, hindex]
  refine Yields.of_eq (StoreM.update_apply hcut _) ⟨?_, ?_, ?_, ?_, ?_⟩
  · rw [size_slots_update, ht.size, hlink.size]
  · rw [trees_update, ht.trees, hlink.trees]
  · intro c hc _ x hx
    rw [List.mem_singleton.mp hc] at hx
    have hxp : x ≠ parent := by
      rintro rfl
      exact hout hx
    rw [get?_update_of_ne _ _ hxp, ht.get?_below x (hlink.below_iff.mpr hx)]
  · have hnodup : p.children.Nodup := hchildren ▸ o.wired.nodup_children parent
    rw [get?_update_self, hcut, hp, Option.map_some, Option.map_some, pushData_removed,
      cutBack_singleton hex hn hnodup]
  · intro x hxp hx
    have hxc : ¬ s.Below child x := hx child List.mem_cons_self hex
    have hxchild : x ≠ child := by
      rintro rfl
      exact hxc .self
    rw [get?_update_of_ne _ _ hxp, ht.get?_of_not_below x (fun hb => hxc (hlink.below_iff.mp hb)),
      Store.unlink, get?_update_of_ne _ _ hxchild, get?_update_of_ne _ _ hxp]

/-- One child is looked at. -/
theorem pruneChild_spec (o : s.Owned) (h : s.parentOf child = some parent) :
    Succeeds (r.pruneChild parent child) s fun verdict t =>
      ChildrenPruned r parent [child] s t ∧ verdict.stays = r.enters s child ∧
        verdict.findings = visitFindings s child := by
  obtain ⟨n, hn⟩ := contains_iff.mp (contains_of_parentOf h)
  have hfeature : isFeature s child = n.isKeyword .feature := by
    rw [isFeature, hn, Option.any_some]
  apply Yields.bind_of_eq (StoreM.node_apply hn)
  by_cases hf : n.isKeyword .feature = true
  · rw [if_pos hf]
    rw [hf] at hfeature
    exact Yields.pure ⟨.of_kept_child (excludes_of_isFeature hfeature),
      (enters_of_isFeature hfeature).symm, (visitFindings_of_isFeature hfeature).symm⟩
  rw [if_neg hf]
  rw [Bool.not_eq_true] at hf
  rw [hf] at hfeature
  rw [enters_of_not_isFeature hfeature, visitFindings_of_not_isFeature hfeature]
  have hexcludes : r.excludes s child = !r.admits s child := excludes_of_not_isFeature hfeature
  apply Yields.bind_of_eq (StoreM.childrenOfKeyword_apply hn _)
  by_cases hnone : (s.childrenOfKeyword child .ifFeature).isEmpty = true
  · rw [if_pos hnone]
    obtain ⟨hadmits, hfindings⟩ := admits_of_unconditional (r := r) (List.isEmpty_iff.mp hnone)
    rw [hadmits] at hexcludes
    exact Yields.pure ⟨.of_kept_child hexcludes, hadmits.symm, hfindings.symm⟩
  rw [if_neg hnone]
  refine Yields.bind_of_eq (a := (r.admits s child, conditionFindings s child)) (t := s) ?_ ?_
  · rw [query_apply, judge, node_of_get? hn]
    rfl
  dsimp only
  by_cases hadmits : r.admits s child = true
  · rw [if_pos hadmits]
    rw [hadmits] at hexcludes
    exact Yields.pure ⟨.of_kept_child hexcludes, hadmits.symm, rfl⟩
  · rw [if_neg hadmits]
    rw [Bool.not_eq_true] at hadmits
    rw [hadmits] at hexcludes
    exact Yields.bind (takeOut_spec o h hexcludes) fun _ t ht =>
      Yields.pure ⟨ht, hadmits.symm, rfl⟩

/-- Looking at a child and then at the rest is looking at all of them. -/
theorem cutBack_cons (c : NodeId) (rest : List NodeId) (n : Node) :
    r.cutBack s rest (r.cutBack s [c] n) = r.cutBack s (c :: rest) n := by
  have hchildren : ((n.children.filter fun d => !([c].contains d && r.excludes s d)).filter
      fun d => !(rest.contains d && r.excludes s d)) =
        n.children.filter fun d => !((c :: rest).contains d && r.excludes s d) := by
    rw [List.filter_filter]
    refine List.filter_congr fun d _ => ?_
    rw [List.contains_cons, List.contains_cons, List.contains_nil, Bool.or_false]
    rcases d == c <;> rcases rest.contains d <;> rcases r.excludes s d <;> rfl
  have hdata : ∀ data : Dictionary CustomValue,
      ((rest.filter (r.excludes s)).filterMap (removedNameOf? s)).foldl noteRemoved
        ((([c].filter (r.excludes s)).filterMap (removedNameOf? s)).foldl noteRemoved data) =
      (((c :: rest).filter (r.excludes s)).filterMap (removedNameOf? s)).foldl noteRemoved
        data := by
    intro data
    rw [← List.foldl_append, ← List.filterMap_append, ← List.filter_append]
    rfl
  rw [cutBack, cutBack, cutBack, hdata]
  dsimp only
  rw [hchildren]

/-- What is below one child is outside the subtrees of its siblings, and is not the parent. -/
theorem ChildrenPruned.sameBelow (w : s.Wired) (h : ChildrenPruned r parent [child] s t)
    (hmem : child ∈ s.childrenOf parent) {c : NodeId} (hc : c ∈ s.childrenOf parent)
    (hne : c ≠ child) : s.SameBelow t c := by
  intro x hx
  refine h.other x ?_ ?_
  · rintro rfl
    exact (w.grounded _).not_below_parent (w.parentOf_of_mem hc) hx
  · intro d hd _ hx'
    rw [List.mem_singleton.mp hd] at hx'
    exact w.not_below_of_siblings hc hmem hne hx hx'

/-- Children are looked at one after another. -/
theorem ChildrenPruned.cons {rest : List NodeId} (ws : s.Wired) (wt : t.Wired)
    (h : ChildrenPruned r parent [child] s t) (h' : ChildrenPruned r parent rest t u)
    (hmem : ∀ c ∈ child :: rest, c ∈ s.childrenOf parent) (hnodup : (child :: rest).Nodup) :
    ChildrenPruned r parent (child :: rest) s u := by
  obtain ⟨hnot, -⟩ := List.nodup_cons.mp hnodup
  have hchild := hmem child List.mem_cons_self
  have hsame : ∀ c ∈ rest, s.SameBelow t c := fun c hc =>
    h.sameBelow ws hchild (hmem c (List.mem_cons_of_mem _ hc)) fun heq => hnot (heq ▸ hc)
  have hbelow : ∀ c ∈ rest, ∀ x, t.Below c x ↔ s.Below c x := fun c hc x =>
    (hsame c hc).below_iff ws wt
  have hexcludes : ∀ c ∈ rest, r.excludes t c = r.excludes s c := fun c hc =>
    excludes_congr (hsame c hc) ws
  refine ⟨h'.size.trans h.size, h'.trees.trans h.trees, ?_, ?_, ?_⟩
  · intro c hc hex x hx
    obtain rfl | hc := List.mem_cons.mp hc
    · have hxp : x ≠ parent := by
        rintro rfl
        exact (ws.grounded _).not_below_parent (ws.parentOf_of_mem hchild) hx
      rw [h'.other x hxp, h.removed c List.mem_cons_self hex x hx]
      intro d hd _ hx'
      have hne : d ≠ c := fun heq => hnot (heq ▸ hd)
      exact ws.not_below_of_siblings (hmem d (List.mem_cons_of_mem _ hd)) hchild hne
        ((hbelow d hd x).mp hx') hx
    · exact h'.removed c hc (by rwa [hexcludes c hc]) x ((hbelow c hc x).mpr hx)
  · rw [h'.parent, h.parent, Option.map_map]
    refine congrArg (Option.map · _) (funext fun n => ?_)
    rw [Function.comp_apply, cutBack_congr ws hsame, cutBack_cons]
  · intro x hxp hx
    rw [h'.other x hxp, h.other x hxp]
    · intro c hc
      rw [List.mem_singleton.mp hc]
      exact hx child List.mem_cons_self
    · intro c hc hex hx'
      refine hx c (List.mem_cons_of_mem _ hc) ?_ ((hbelow c hc x).mp hx')
      rwa [hexcludes c hc] at hex

/-- The children of a statement are looked at.  The result is known from the store before. -/
theorem pruneChildren_spec {children : List NodeId} (o : s.Owned)
    (h : ∀ c ∈ children, s.parentOf c = some parent) (hnodup : children.Nodup) :
    Succeeds (r.pruneChildren parent children) s fun result t =>
      ChildrenPruned r parent children s t ∧ result.1 = children.filter (r.enters s) ∧
        result.2 = children.flatMap (visitFindings s) := by
  induction children generalizing s with
  | nil => exact Yields.pure ⟨ChildrenPruned.of_kept fun _ hc => absurd hc List.not_mem_nil, rfl,
      rfl⟩
  | cons child rest ih =>
    have hchild := h child List.mem_cons_self
    obtain ⟨hnot, hrest⟩ := List.nodup_cons.mp hnodup
    have hmem : ∀ c ∈ child :: rest, c ∈ s.childrenOf parent := fun c hc =>
      o.wired.mem_of_parentOf (h c hc)
    rw [pruneChildren_cons]
    refine Yields.bind ((pruneChild_spec o hchild).and (pruneChild_succeeds o hchild)) ?_
    intro verdict t ⟨⟨ht, hstays, hfindings⟩, hthin, _⟩
    have hsame : ∀ c ∈ rest, s.SameBelow t c := fun c hc =>
      ht.sameBelow o.wired (hmem child List.mem_cons_self)
        (hmem c (List.mem_cons_of_mem _ hc)) fun heq => hnot (heq ▸ hc)
    have hparent : ∀ c ∈ rest, t.parentOf c = some parent := fun c hc => by
      rw [(hsame c hc).parentOf .self, h c (List.mem_cons_of_mem _ hc)]
    refine Yields.bind (ih hthin.owned hparent hrest) ?_
    rintro ⟨kept, findings⟩ u ⟨hu, hkept, hfindings'⟩
    dsimp only at hkept hfindings'
    refine Yields.pure ⟨ht.cons o.wired hthin.owned.wired hu hmem hnodup, ?_, ?_⟩
    · have henters : rest.filter (r.enters t) = rest.filter (r.enters s) :=
        List.filter_congr fun c hc => enters_congr (hsame c hc) o.wired
      dsimp only
      rw [hkept, henters, hstays, List.filter_cons]
    · have hvisits : rest.flatMap (visitFindings t) = rest.flatMap (visitFindings s) :=
        List.flatMap_congr fun c hc => visitFindings_congr (hsame c hc) o.wired
      dsimp only
      rw [hfindings, hfindings', hvisits, List.flatMap_cons]

/-! ## Whole subtrees -/

/-- Pruning from some statements comes to a statement. -/
inductive Visits (r : FeatureRegistry) (s : Store) (starts : List NodeId) : NodeId → Prop where
  | start {x : NodeId} (h : x ∈ starts) : Visits r s starts x
  | child {p c : NodeId} (h : Visits r s starts p) (hc : s.parentOf c = some p)
      (henters : r.enters s c = true) : Visits r s starts c

/-- Pruning from some statements takes a statement out, with a subtree that it is in. -/
def Removes (r : FeatureRegistry) (s : Store) (starts : List NodeId) (x : NodeId) : Prop :=
  ∃ p c, r.Visits s starts p ∧ s.parentOf c = some p ∧ r.excludes s c = true ∧ s.Below c x

/-- A finding is made when a child of a statement that pruning comes to is looked at. -/
def Finds (r : FeatureRegistry) (s : Store) (starts : List NodeId) (g : Finding) : Prop :=
  ∃ p c, r.Visits s starts p ∧ s.parentOf c = some p ∧ g ∈ visitFindings s c

variable {starts starts' : List NodeId}

/-- What pruning comes to stands below one of the statements that it starts from. -/
theorem Visits.exists_below (h : r.Visits s starts x) : ∃ c ∈ starts, s.Below c x := by
  induction h with
  | @start x hx => exact ⟨x, hx, .self⟩
  | child _ hc _ ih =>
    obtain ⟨d, hd, hbelow⟩ := ih
    exact ⟨d, hd, .under hc hbelow⟩

/-- What pruning takes out stands below one of the statements that it starts from. -/
theorem Removes.exists_below (h : r.Removes s starts x) : ∃ c ∈ starts, s.Below c x := by
  obtain ⟨p, c, hp, hc, -, hx⟩ := h
  obtain ⟨d, hd, hbelow⟩ := hp.exists_below
  exact ⟨d, hd, hbelow.trans ((below_of_parentOf hc).trans hx)⟩

/-- From more statements pruning comes to more. -/
theorem Visits.mono (h : r.Visits s starts x) (hsub : starts ⊆ starts') :
    r.Visits s starts' x := by
  induction h with
  | start hx => exact .start (hsub hx)
  | child _ hc henters ih => exact .child ih hc henters

/-- From two lists pruning comes to what it comes to from either of them. -/
theorem visits_append :
    r.Visits s (starts ++ starts') x ↔ r.Visits s starts x ∨ r.Visits s starts' x := by
  constructor
  · intro h
    induction h with
    | start hx => exact (List.mem_append.mp hx).imp .start .start
    | child _ hc henters ih => exact ih.imp (.child · hc henters) (.child · hc henters)
  · rintro (h | h)
    · exact h.mono (List.subset_append_left _ _)
    · exact h.mono (List.subset_append_right _ _)

/-- From two lists pruning takes out what it takes out from either of them. -/
theorem removes_append :
    r.Removes s (starts ++ starts') x ↔ r.Removes s starts x ∨ r.Removes s starts' x := by
  constructor
  · rintro ⟨p, d, hp, hrest⟩
    exact (visits_append.mp hp).imp (⟨p, d, ·, hrest⟩) (⟨p, d, ·, hrest⟩)
  · rintro (⟨p, d, hp, hrest⟩ | ⟨p, d, hp, hrest⟩)
    · exact ⟨p, d, visits_append.mpr (.inl hp), hrest⟩
    · exact ⟨p, d, visits_append.mpr (.inr hp), hrest⟩

/-- From two lists pruning finds what it finds from either of them. -/
theorem finds_append {g : Finding} :
    r.Finds s (starts ++ starts') g ↔ r.Finds s starts g ∨ r.Finds s starts' g := by
  constructor
  · rintro ⟨p, d, hp, hrest⟩
    exact (visits_append.mp hp).imp (⟨p, d, ·, hrest⟩) (⟨p, d, ·, hrest⟩)
  · rintro (⟨p, d, hp, hrest⟩ | ⟨p, d, hp, hrest⟩)
    · exact ⟨p, d, visits_append.mpr (.inl hp), hrest⟩
    · exact ⟨p, d, visits_append.mpr (.inr hp), hrest⟩

/-- Where pruning comes to depends on the subtrees of the starts only. -/
theorem Visits.of_sameBelow (h : r.Visits s starts x) (ws : s.Wired)
    (hsame : ∀ c ∈ starts, s.SameBelow t c) : r.Visits t starts x := by
  induction h with
  | start hx => exact .start hx
  | child hp hc henters ih =>
    obtain ⟨d, hd, hbelow⟩ := hp.exists_below
    have hbelow' := Below.under hc hbelow
    refine .child ih ?_ ?_
    · rw [(hsame d hd).parentOf hbelow', hc]
    · rw [enters_congr ((hsame d hd).below hbelow') ws, henters]

/-- A child of a statement that pruning comes to is the same in both stores, with all that
is below it. -/
theorem exists_sameBelow {p c : NodeId} (hsame : ∀ c ∈ starts, s.SameBelow t c)
    (hp : r.Visits s starts p) (hc : s.parentOf c = some p) :
    s.SameBelow t c ∧ t.parentOf c = some p := by
  obtain ⟨d, hd, hbelow⟩ := hp.exists_below
  have hbelow' := Below.under hc hbelow
  exact ⟨(hsame d hd).below hbelow', by rw [(hsame d hd).parentOf hbelow', hc]⟩

section SameBelow

variable (ws : s.Wired) (wt : t.Wired) (hsame : ∀ c ∈ starts, s.SameBelow t c)

include ws wt hsame

/-- Pruning comes to the same statements in stores that are the same below its starts. -/
theorem visits_congr : r.Visits t starts x ↔ r.Visits s starts x :=
  ⟨fun h => h.of_sameBelow wt fun c hc => (hsame c hc).symm ws wt, fun h =>
    h.of_sameBelow ws hsame⟩

/-- Pruning takes the same statements out. -/
theorem removes_congr : r.Removes t starts x ↔ r.Removes s starts x := by
  constructor
  · rintro ⟨p, c, hp, hc, hex, hx⟩
    have hback : ∀ d ∈ starts, t.SameBelow s d := fun d hd => (hsame d hd).symm ws wt
    obtain ⟨hcs, hparent⟩ := exists_sameBelow hback hp hc
    refine ⟨p, c, (visits_congr ws wt hsame).mp hp, hparent, ?_, hcs.below_of_below hx⟩
    rw [excludes_congr hcs wt, hex]
  · rintro ⟨p, c, hp, hc, hex, hx⟩
    obtain ⟨hct, hparent⟩ := exists_sameBelow hsame hp hc
    refine ⟨p, c, (visits_congr ws wt hsame).mpr hp, hparent, ?_, hct.below_of_below hx⟩
    rw [excludes_congr hct ws, hex]

/-- Pruning finds the same. -/
theorem finds_congr {g : Finding} : r.Finds t starts g ↔ r.Finds s starts g := by
  constructor
  · rintro ⟨p, c, hp, hc, hg⟩
    have hback : ∀ d ∈ starts, t.SameBelow s d := fun d hd => (hsame d hd).symm ws wt
    obtain ⟨hcs, hparent⟩ := exists_sameBelow hback hp hc
    refine ⟨p, c, (visits_congr ws wt hsame).mp hp, hparent, ?_⟩
    rwa [visitFindings_congr hcs wt]
  · rintro ⟨p, c, hp, hc, hg⟩
    obtain ⟨hct, hparent⟩ := exists_sameBelow hsame hp hc
    refine ⟨p, c, (visits_congr ws wt hsame).mpr hp, hparent, ?_⟩
    rwa [visitFindings_congr hct ws]

end SameBelow

/-- Everything below some statements has been pruned. -/
structure Pruned (r : FeatureRegistry) (starts : List NodeId) (s t : Store)
    (findings : List Finding) : Prop where
  size : t.slots.size = s.slots.size
  trees : t.trees = s.trees
  removed : ∀ x, r.Removes s starts x → t.get? x = none
  visited : ∀ x, r.Visits s starts x →
    t.get? x = (s.get? x).map (r.cutBack s (s.childrenOf x))
  other : ∀ x, ¬ r.Visits s starts x → ¬ r.Removes s starts x → t.get? x = s.get? x
  mem_findings : ∀ g, g ∈ findings ↔ r.Finds s starts g

variable {findings findings' : List Finding}

/-- From no statement pruning changes nothing. -/
theorem Pruned.nil : Pruned r [] s s [] where
  size := rfl
  trees := rfl
  removed x hx := by
    obtain ⟨c, hc, -⟩ := hx.exists_below
    cases hc
  visited x hx := by
    obtain ⟨c, hc, -⟩ := hx.exists_below
    cases hc
  other _ _ _ := rfl
  mem_findings g := by
    refine ⟨fun hg => absurd hg List.not_mem_nil, ?_⟩
    rintro ⟨p, c, hp, -⟩
    obtain ⟨d, hd, -⟩ := hp.exists_below
    cases hd

/-- Outside the subtrees of the starts nothing changes. -/
theorem Pruned.get?_of_not_below (h : Pruned r starts s t findings)
    (hx : ∀ c ∈ starts, ¬ s.Below c x) : t.get? x = s.get? x := by
  refine h.other x (fun hvisits => ?_) fun hremoves => ?_
  · obtain ⟨c, hc, hbelow⟩ := hvisits.exists_below
    exact hx c hc hbelow
  · obtain ⟨c, hc, hbelow⟩ := hremoves.exists_below
    exact hx c hc hbelow

/-- Subtrees that lie apart are pruned one after another. -/
theorem Pruned.append (ws : s.Wired) (wt : t.Wired) (h : Pruned r starts s t findings)
    (h' : Pruned r starts' t u findings')
    (hapart : ∀ c ∈ starts, ∀ d ∈ starts', ∀ x, s.Below c x → ¬ s.Below d x) :
    Pruned r (starts ++ starts') s u (findings ++ findings') := by
  have hsame : ∀ d ∈ starts', s.SameBelow t d := fun d hd x hx =>
    h.get?_of_not_below fun c hc hx' => hapart c hc d hd x hx' hx
  have hfirst : ∀ c ∈ starts, ∀ x, s.Below c x → u.get? x = t.get? x := by
    intro c hc x hx
    refine h'.get?_of_not_below fun d hd hx' => ?_
    exact hapart c hc d hd x hx (((hsame d hd).below_iff ws wt).mp hx')
  refine ⟨h'.size.trans h.size, h'.trees.trans h.trees, ?_, ?_, ?_, ?_⟩
  · intro x hx
    obtain hx | hx := removes_append.mp hx
    · obtain ⟨c, hc, hbelow⟩ := hx.exists_below
      rw [hfirst c hc x hbelow, h.removed x hx]
    · exact h'.removed x ((removes_congr ws wt hsame).mpr hx)
  · intro x hx
    obtain hx | hx := visits_append.mp hx
    · obtain ⟨c, hc, hbelow⟩ := hx.exists_below
      rw [hfirst c hc x hbelow, h.visited x hx]
    · obtain ⟨d, hd, hbelow⟩ := hx.exists_below
      rw [h'.visited x ((visits_congr ws wt hsame).mpr hx), hsame d hd x hbelow,
        (hsame d hd).childrenOf hbelow]
      refine congrArg (Option.map · _) (funext fun n => cutBack_congr ws fun e he => ?_)
      exact (hsame d hd).below (.under (ws.parentOf_of_mem he) hbelow)
  · intro x hvisits hremoves
    rw [visits_append, not_or] at hvisits
    rw [removes_append, not_or] at hremoves
    rw [h'.other x (fun hx => hvisits.2 ((visits_congr ws wt hsame).mp hx))
      (fun hx => hremoves.2 ((removes_congr ws wt hsame).mp hx)), h.other x hvisits.1 hremoves.1]
  · intro g
    rw [List.mem_append, h.mem_findings, h'.mem_findings, finds_congr ws wt hsame, finds_append]

/-! ### From a statement to its children -/

section Kept

variable {kept : List NodeId}
  (hkept : ∀ c, c ∈ kept ↔ s.parentOf c = some parent ∧ r.enters s c = true)

include hkept

/-- Pruning comes to a statement and to what it comes to from the children that are kept. -/
theorem visits_iff_kept : r.Visits s [parent] x ↔ x = parent ∨ r.Visits s kept x := by
  constructor
  · intro h
    induction h with
    | start hx => exact .inl (List.mem_singleton.mp hx)
    | child _ hc henters ih =>
      obtain rfl | hp := ih
      · exact .inr (.start ((hkept _).mpr ⟨hc, henters⟩))
      · exact .inr (.child hp hc henters)
  · rintro (rfl | h)
    · exact .start List.mem_cons_self
    · induction h with
      | start hx =>
        obtain ⟨hc, henters⟩ := (hkept _).mp hx
        exact .child (.start List.mem_cons_self) hc henters
      | child _ hc henters ih => exact .child ih hc henters

/-- Pruning takes out the children that are excluded, and what it takes out from the others. -/
theorem removes_iff_kept : r.Removes s [parent] x ↔
    (∃ c, s.parentOf c = some parent ∧ r.excludes s c = true ∧ s.Below c x) ∨
      r.Removes s kept x := by
  constructor
  · rintro ⟨p, c, hp, hc, hrest⟩
    obtain rfl | hp := (visits_iff_kept hkept).mp hp
    · exact .inl ⟨c, hc, hrest⟩
    · exact .inr ⟨p, c, hp, hc, hrest⟩
  · rintro (⟨c, hc, hrest⟩ | ⟨p, c, hp, hrest⟩)
    · exact ⟨parent, c, .start List.mem_cons_self, hc, hrest⟩
    · exact ⟨p, c, (visits_iff_kept hkept).mpr (.inr hp), hrest⟩

/-- Pruning finds what is found at the children, and what it finds from those that are kept. -/
theorem finds_iff_kept {g : Finding} : r.Finds s [parent] g ↔
    (∃ c, s.parentOf c = some parent ∧ g ∈ visitFindings s c) ∨ r.Finds s kept g := by
  constructor
  · rintro ⟨p, c, hp, hc, hg⟩
    obtain rfl | hp := (visits_iff_kept hkept).mp hp
    · exact .inl ⟨c, hc, hg⟩
    · exact .inr ⟨p, c, hp, hc, hg⟩
  · rintro (⟨c, hc, hg⟩ | ⟨p, c, hp, hrest⟩)
    · exact ⟨parent, c, .start List.mem_cons_self, hc, hg⟩
    · exact ⟨p, c, (visits_iff_kept hkept).mpr (.inr hp), hrest⟩

/-- What is below a kept child has not been touched when its parent has been left. -/
theorem ChildrenPruned.sameBelow_kept (w : s.Wired)
    (h : ChildrenPruned r parent (s.childrenOf parent) s t)
    {c : NodeId} (hc : c ∈ kept) : s.SameBelow t c := by
  obtain ⟨hcp, henters⟩ := (hkept c).mp hc
  intro x hx
  refine h.other x ?_ ?_
  · rintro rfl
    exact (w.grounded _).not_below_parent hcp hx
  · intro d hd hex hx'
    refine w.not_below_of_siblings hd (w.mem_of_parentOf hcp) ?_ hx' hx
    rintro rfl
    rw [excludes, Bool.and_eq_true, Bool.not_eq_true'] at hex
    rw [enters, hex.1, Bool.not_false, Bool.true_and] at henters
    rw [henters] at hex
    cases hex.2

/-- A subtree has been pruned when the children of its statement have been looked at and
what is below the kept ones has been pruned. -/
theorem ChildrenPruned.pruned (ws : s.Wired) (wt : t.Wired)
    (h : ChildrenPruned r parent (s.childrenOf parent) s t) (h' : Pruned r kept t u findings) :
    Pruned r [parent] s u ((s.childrenOf parent).flatMap (visitFindings s) ++ findings) := by
  have hsame : ∀ c ∈ kept, s.SameBelow t c := fun c hc => h.sameBelow_kept hkept ws hc
  have hparent : ∀ c ∈ kept, s.parentOf c = some parent := fun c hc => ((hkept c).mp hc).1
  have hself : u.get? parent = t.get? parent := by
    refine h'.get?_of_not_below fun c hc hx => ?_
    rw [(hsame c hc).below_iff ws wt] at hx
    exact (ws.grounded parent).not_below_parent (hparent c hc) hx
  refine ⟨h'.size.trans h.size, h'.trees.trans h.trees, ?_, ?_, ?_, ?_⟩
  · intro x hx
    obtain ⟨c, hc, hex, hbelow⟩ | hx := (removes_iff_kept hkept).mp hx
    · rw [h'.get?_of_not_below, h.removed c (ws.mem_of_parentOf hc) hex x hbelow]
      intro d hd hx'
      obtain ⟨hdp, henters⟩ := (hkept d).mp hd
      refine ws.not_below_of_siblings (ws.mem_of_parentOf hc) (ws.mem_of_parentOf hdp) ?_ hbelow
        (((hsame d hd).below_iff ws wt).mp hx')
      rintro rfl
      rw [excludes, Bool.and_eq_true, Bool.not_eq_true'] at hex
      rw [enters, hex.1, Bool.not_false, Bool.true_and] at henters
      rw [henters] at hex
      cases hex.2
    · exact h'.removed x ((removes_congr ws wt hsame).mpr hx)
  · intro x hx
    obtain rfl | hx := (visits_iff_kept hkept).mp hx
    · rw [hself, h.parent]
    · obtain ⟨d, hd, hbelow⟩ := hx.exists_below
      rw [h'.visited x ((visits_congr ws wt hsame).mpr hx), hsame d hd x hbelow,
        (hsame d hd).childrenOf hbelow]
      refine congrArg (Option.map · _) (funext fun n => cutBack_congr ws fun e he => ?_)
      exact (hsame d hd).below (.under (ws.parentOf_of_mem he) hbelow)
  · intro x hvisits hremoves
    rw [visits_iff_kept hkept, not_or] at hvisits
    rw [removes_iff_kept hkept, not_or] at hremoves
    rw [h'.other x (fun hx => hvisits.2 ((visits_congr ws wt hsame).mp hx))
      (fun hx => hremoves.2 ((removes_congr ws wt hsame).mp hx)), h.other x hvisits.1]
    exact fun c hc hex hbelow => hremoves.1 ⟨c, ws.parentOf_of_mem hc, hex, hbelow⟩
  · intro g
    rw [List.mem_append, List.mem_flatMap, h'.mem_findings, finds_congr ws wt hsame,
      finds_iff_kept hkept]
    simp only [ws.mem_children]

end Kept

/-- Subtrees that lie apart are pruned one after another.  `prune` stands for what is done
to each item, and `starts` for the subtrees that it prunes. -/
theorem mapM_spec {α : Type} (r : FeatureRegistry) (starts : α → List NodeId)
    {prune : α → StoreM (List Finding)} {items : List α} {done : Store} (o : s.Owned)
    (hthin : Thinned done s fun _ => True)
    (hlive : ∀ i ∈ items, ∀ c ∈ starts i, s.contains c = true)
    (hapart : items.Pairwise fun i j => ∀ c ∈ starts i, ∀ d ∈ starts j, ∀ x,
      s.Below c x → ¬ s.Below d x)
    (hprune : ∀ i ∈ items, ∀ t, t.Owned → Thinned done t (fun _ => True) →
      (∀ c ∈ starts i, t.contains c = true) → Succeeds (prune i) t fun findings u =>
        Pruned r (starts i) t u findings ∧ Thinned t u fun _ => True) :
    Succeeds (items.mapM prune) s fun findings t =>
      Pruned r (items.flatMap starts) s t findings.flatten := by
  induction items generalizing s with
  | nil => exact Yields.pure Pruned.nil
  | cons i rest ih =>
    obtain ⟨hfirst, hrest⟩ := List.pairwise_cons.mp hapart
    rw [List.mapM_cons]
    refine Yields.bind (hprune i List.mem_cons_self s o hthin (hlive i List.mem_cons_self)) ?_
    intro findings t ⟨ht, hst⟩
    have hsame : ∀ j ∈ rest, ∀ d ∈ starts j, s.SameBelow t d := fun j hj d hd x hx =>
      ht.get?_of_not_below fun c hc hx' => hfirst j hj c hc d hd x hx' hx
    refine Yields.bind (ih hst.owned ((hthin.trans hst).mono fun _ _ => trivial) ?_ ?_ ?_) ?_
    · intro j hj d hd
      rw [contains, hsame j hj d hd d .self]
      exact hlive j (List.mem_cons_of_mem _ hj) d hd
    · refine hrest.imp_of_mem fun {j k} hj hk hjk c hc d hd x hx hx' => ?_
      rw [(hsame j hj c hc).below_iff o.wired hst.owned.wired] at hx
      rw [(hsame k hk d hd).below_iff o.wired hst.owned.wired] at hx'
      exact hjk c hc d hd x hx hx'
    · exact fun j hj => hprune j (List.mem_cons_of_mem _ hj)
    · intro findings' u hu
      refine Yields.pure (ht.append o.wired hst.owned.wired hu fun c hc d hd => ?_)
      obtain ⟨j, hj, hd⟩ := List.mem_flatMap.mp hd
      exact hfirst j hj c hc d hd

/-- Everything below a statement is pruned by a walk that may go on for long enough. -/
theorem pruneWithin_spec {height d : Nat} (o : s.Owned) (hlive : s.contains parent = true)
    (hd : s.Depth parent d) (hheight : s.slots.size ≤ height + d) :
    Succeeds (r.pruneWithin height parent) s fun findings t => Pruned r [parent] s t findings := by
  induction height generalizing s parent d with
  | zero =>
    have hlt := o.wired.depth_lt_size hd hlive
    omega
  | succ height ih =>
    obtain ⟨n, hn⟩ := contains_iff.mp hlive
    rw [pruneWithin_succ]
    apply Yields.bind_of_eq (StoreM.childrenOf_apply hn)
    rw [← childrenOf_of_get? hn]
    have hparent : ∀ c ∈ s.childrenOf parent, s.parentOf c = some parent := fun c hc =>
      o.wired.parentOf_of_mem hc
    have hnodup := o.wired.nodup_children parent
    refine Yields.bind ((pruneChildren_spec o hparent hnodup).and
      (pruneChildren_succeeds o hparent hnodup)) ?_
    rintro ⟨kept, findings⟩ t ⟨⟨ht, hkept, hfindings⟩, hthin, -, hstays⟩
    dsimp only at hkept hfindings hstays
    subst hkept hfindings
    have hmem : ∀ c, c ∈ ((s.childrenOf parent).filter (r.enters s)).reverse ↔
        s.parentOf c = some parent ∧ r.enters s c = true := by
      intro c
      rw [List.mem_reverse, List.mem_filter, o.wired.mem_children]
    have hbelow : ∀ c ∈ ((s.childrenOf parent).filter (r.enters s)).reverse, ∀ x,
        t.Below c x ↔ s.Below c x := fun c hc x =>
      (ht.sameBelow_kept hmem o.wired hc).below_iff o.wired hthin.owned.wired
    refine Yields.bind (mapM_spec r (fun c => [c]) hthin.owned
      (hthin.mono fun _ _ => trivial) ?_ ?_ ?_) fun below u hu => Yields.pure ?_
    · intro c hc e he
      rw [List.mem_singleton.mp he]
      exact hstays c (List.mem_reverse.mp hc)
    · refine (List.nodup_reverse.mpr (hnodup.filter _)).imp_of_mem fun {c e} hc he hne => ?_
      intro c' hc' e' he' x hx hx'
      rw [List.mem_singleton.mp hc', hbelow c hc] at hx
      rw [List.mem_singleton.mp he', hbelow e he] at hx'
      exact o.wired.not_below_of_siblings (o.wired.mem_of_parentOf ((hmem c).mp hc).1)
        (o.wired.mem_of_parentOf ((hmem e).mp he).1) hne hx hx'
    · intro c hc v ov hv hcv
      have hcv := hcv c List.mem_cons_self
      have hdepth : v.Depth c (d + 1) := hv.depth hcv (.under ((hmem c).mp hc).1 hd)
      have hheight' : v.slots.size ≤ height + (d + 1) := by
        rw [hv.size]
        omega
      exact (ih ov hcv hdepth hheight').and
        ((pruneWithin_succeeds ov hcv hdepth hheight').imp fun _ _ hw => hw.mono fun _ _ => trivial)
    · rw [List.flatMap_singleton'] at hu
      exact ht.pruned hmem o.wired hthin.owned.wired hu

/-! ## Trees -/

/-- A tree is pruned below its top. -/
theorem pruneTree_spec (o : s.Owned) {root : RootId} {tree : Tree}
    (h : s.tree? root = some tree) :
    Succeeds (r.pruneTree root) s fun findings t =>
      Pruned r (s.topOf root).toList s t findings := by
  apply Yields.bind_of_eq (StoreM.tree_apply h)
  rcases htop : tree.top with _ | top
  · have hnone : s.topOf root = none := by rw [topOf, h, Option.bind_some, htop]
    rw [hnone]
    exact Yields.pure Pruned.nil
  have hroot : s.topOf root = some top := by rw [topOf, h, Option.bind_some, htop]
  have hlive := contains_of_rootOf (o.rooted.rootOf_top root top hroot)
  rw [hroot]
  apply Yields.bind_get
  exact pruneWithin_spec o hlive (.top (o.rooted.parentOf_top root top hroot)) (by omega)

/-- Trees are pruned one after another, which makes no difference to any of them. -/
theorem pruneTrees_spec {roots : List RootId} (o : s.Owned)
    (hroots : ∀ q ∈ roots, ∃ tree, s.tree? q = some tree) (hnodup : roots.Nodup) :
    Succeeds (r.pruneTrees roots) s fun findings t =>
      Pruned r (roots.filterMap s.topOf) s t findings := by
  have htops : roots.flatMap (fun q => (s.topOf q).toList) = roots.filterMap s.topOf :=
    (List.filterMap_eq_flatMap_toList _ _).symm
  refine Yields.bind (mapM_spec r (fun q => (s.topOf q).toList) o (Thinned.refl o) ?_ ?_ ?_)
    fun findings t ht => Yields.pure (htops ▸ ht)
  · intro q _ c hc
    exact contains_of_rootOf (o.rooted.rootOf_top q c (Option.mem_toList.mp hc))
  · refine hnodup.imp fun {q q'} hne c hc d hd x hx hx' => hne ?_
    have hq := o.rooted.rootOf_eq_of_below hx
    have hq' := o.rooted.rootOf_eq_of_below hx'
    rw [o.rooted.rootOf_top q c (Option.mem_toList.mp hc)] at hq
    rw [hq, o.rooted.rootOf_top q' d (Option.mem_toList.mp hd)] at hq'
    exact Option.some.inj hq'
  · intro q hq t ot ht _
    obtain ⟨tree, htree⟩ := hroots q hq
    have htree' : t.tree? q = some tree := by rw [tree?, ht.trees, ← tree?, htree]
    have htop : t.topOf q = s.topOf q := by rw [topOf, topOf, htree, htree']
    exact htop ▸ (pruneTree_spec ot htree').and
      ((pruneTree_succeeds ot htree').imp fun _ _ hu => hu.mono fun _ _ => trivial)

end FeatureRegistry
end StatementForest
