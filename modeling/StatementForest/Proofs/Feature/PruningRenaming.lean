import StatementForest.Proofs.Feature.PruningEffect
import StatementForest.Proofs.Store.Renaming

/-!
# Pruning under new numbers

Whether a statement is taken out is decided by the conditions on it and by the features that
are supported.  Neither depends on numbers or on the order in which features became known,
so stores that are the same up to a renaming are still so when both have been pruned.

Main results:

- Theorem `ScopedCondition.holds_congr`: a condition depends on which features are
  supported, not on their order.
- Theorem `Store.Renamed.visits_iff`, `Store.Renamed.removes_iff`: pruning comes to the same
  statements, and takes out the same.
- Theorem `Store.Renamed.pruned`: statements under new numbers are pruned in the same way.
-/

namespace StatementForest

open Store FeatureRegistry

/-- A condition depends on which features are supported, not on their order. -/
theorem ScopedCondition.holds_congr {supported supported' : List Key}
    (h : ∀ k, k ∈ supported' ↔ k ∈ supported) (c : ScopedCondition) :
    c.holds supported' = c.holds supported := by
  have hcontains : supported'.contains = supported.contains := funext fun k => by
    rw [List.contains_eq_mem, List.contains_eq_mem, decide_eq_decide]
    exact h k
  rw [holds, holds, hcontains]

namespace Store.Renamed

variable {f : Renaming} {a b a' b' : Store} {ra rb : FeatureRegistry} {x p c : NodeId}
  {starts starts' : List NodeId} {findings findings' : List Finding}

/-! ## What is found at a statement -/

/-- What is found out about the children of a keyword, when it does not depend on numbers. -/
theorem filterMap_childrenOfKeyword (h : Renamed f a b) {β : Type} {w : Node → Option β}
    (hw : ∀ n m, n.Renamed f m → w m = w n) (x : NodeId) (k : Keyword) :
    (b.childrenOfKeyword (f.node x) k).filterMap (fun c => (b.get? c).bind w) =
      (a.childrenOfKeyword x k).filterMap fun c => (a.get? c).bind w := by
  rw [h.childrenOfKeyword, List.filterMap_map]
  exact List.filterMap_congr fun c _ => h.bind_get? hw c

/-- The conditions of a renamed statement are the same. -/
theorem conditionsOf (h : Renamed f a b) (x : NodeId) :
    b.conditionsOf (f.node x) = a.conditionsOf x := by
  refine h.filterMap_childrenOfKeyword (fun n m hnm => ?_) x _
  rw [conditionOf?, conditionOf?, hnm.argument, hnm.element]

/-- The findings about the names in a condition are the same, renamed. -/
theorem nameFindings (hnm : Node.Renamed f n m) (x : NodeId) :
    FeatureRegistry.nameFindings (f.node x) m =
      (FeatureRegistry.nameFindings x n).map (Finding.rename f) := by
  rw [FeatureRegistry.nameFindings, FeatureRegistry.nameFindings, hnm.argument, hnm.element]
  rcases Condition.parse? n.argument with _ | e
  · rfl
  dsimp only
  rw [List.map_filterMap]
  refine List.filterMap_congr fun name _ => ?_
  rcases Text.splitAtFirst ':' name with _ | ⟨qualifier, localName⟩
  · rfl
  dsimp only
  split
  · rw [Option.map_some, unboundFeatureQualifier, unboundFeatureQualifier, Node.subject,
      Node.subject, hnm.element]
    rfl
  · rfl

/-- The findings about the conditions of a statement are the same, renamed. -/
theorem conditionFindings (h : Renamed f a b) (x : NodeId) :
    FeatureRegistry.conditionFindings b (f.node x) =
      (FeatureRegistry.conditionFindings a x).map (Finding.rename f) := by
  rw [FeatureRegistry.conditionFindings, FeatureRegistry.conditionFindings, h.childrenOfKeyword,
    List.flatMap_map, List.map_flatMap]
  refine List.flatMap_congr fun c _ => ?_
  rcases hn : a.get? c with _ | n
  · rw [h.get?_eq_none hn]
    rfl
  · obtain ⟨m, hm, hnm⟩ := h.exists_get? hn
    rw [hm]
    exact nameFindings hnm c

/-- A renamed statement is a feature when the first one is. -/
theorem isFeature (h : Renamed f a b) (x : NodeId) :
    FeatureRegistry.isFeature b (f.node x) = FeatureRegistry.isFeature a x :=
  h.any_get? (fun _ _ hnm => hnm.isKeyword _) x

/-- The findings when a renamed statement is looked at are the same, renamed. -/
theorem visitFindings (h : Renamed f a b) (x : NodeId) :
    FeatureRegistry.visitFindings b (f.node x) =
      (FeatureRegistry.visitFindings a x).map (Finding.rename f) := by
  rw [FeatureRegistry.visitFindings, FeatureRegistry.visitFindings, h.isFeature,
    h.conditionFindings]
  split <;> rfl

/-- The name that is kept of a removed child is the same. -/
theorem removedNameOf? (h : Renamed f a b) (x : NodeId) :
    FeatureRegistry.removedNameOf? b (f.node x) = FeatureRegistry.removedNameOf? a x := by
  refine h.map_get? (fun n m hnm => ?_) x
  rw [removedName, removedName, Node.name, Node.name, hnm.element]

section Supported

variable (hsupported : ∀ k, k ∈ rb.supported ↔ k ∈ ra.supported)

include hsupported

/-- A renamed statement is admitted when the first one is. -/
theorem admits (h : Renamed f a b) (x : NodeId) : rb.admits b (f.node x) = ra.admits a x := by
  have hholds : ScopedCondition.holds rb.supported = ScopedCondition.holds ra.supported :=
    funext (ScopedCondition.holds_congr hsupported)
  rw [FeatureRegistry.admits, FeatureRegistry.admits, h.conditionsOf, hholds]

/-- A renamed statement is taken out when the first one is. -/
theorem excludes (h : Renamed f a b) (x : NodeId) :
    rb.excludes b (f.node x) = ra.excludes a x := by
  rw [FeatureRegistry.excludes, FeatureRegistry.excludes, h.isFeature, h.admits hsupported]

/-- Pruning goes on below a renamed statement when it does below the first one. -/
theorem enters (h : Renamed f a b) (x : NodeId) : rb.enters b (f.node x) = ra.enters a x := by
  rw [FeatureRegistry.enters, FeatureRegistry.enters, h.isFeature, h.admits hsupported]

/-! ## Where pruning comes to -/

/-- Pruning comes to the statements that it came to, renamed. -/
theorem visits (h : Renamed f a b) (hstarts : ∀ x ∈ starts, f.node x ∈ starts')
    (hx : ra.Visits a starts x) : rb.Visits b starts' (f.node x) := by
  induction hx with
  | start hx => exact .start (hstarts _ hx)
  | child _ hc henters ih =>
    refine .child ih ?_ ?_
    · rw [h.parentOf, hc]
      rfl
    · rw [h.enters hsupported, henters]

section Starts

variable (hstarts : ∀ x, f.node x ∈ starts' ↔ x ∈ starts)

include hstarts

/-- Pruning comes to a renamed statement exactly when it comes to the first one. -/
theorem visits_iff (h : Renamed f a b) :
    rb.Visits b starts' (f.node x) ↔ ra.Visits a starts x := by
  refine ⟨fun hx => ?_, h.visits hsupported fun x hx => (hstarts x).mpr hx⟩
  have hback : ra.Visits a starts (f.node.symm (f.node x)) :=
    h.symm.visits (fun k => (hsupported k).symm)
      (fun y hy => (hstarts _).mp ((f.node.apply_symm_apply y).symm ▸ hy)) hx
  rwa [Equiv.symm_apply_apply] at hback

/-- A child of a statement that pruning comes to has a counterpart. -/
theorem exists_child (h : Renamed f a b) {p' c' : NodeId} (hp : rb.Visits b starts' p')
    (hc : b.parentOf c' = some p') :
    ∃ p c, ra.Visits a starts p ∧ a.parentOf c = some p ∧ c' = f.node c := by
  obtain ⟨p, rfl⟩ := f.node.surjective p'
  obtain ⟨c, rfl⟩ := f.node.surjective c'
  refine ⟨p, c, (h.visits_iff hsupported hstarts).mp hp, ?_, rfl⟩
  rw [h.parentOf, Option.map_eq_some_iff] at hc
  obtain ⟨q, hq, hqp⟩ := hc
  rw [hq, f.node.injective hqp]

/-- Pruning takes a renamed statement out exactly when it takes out the first one. -/
theorem removes_iff (h : Renamed f a b) :
    rb.Removes b starts' (f.node x) ↔ ra.Removes a starts x := by
  constructor
  · rintro ⟨p', c', hp, hc, hex, hx⟩
    obtain ⟨p, c, hvisits, hparent, rfl⟩ := h.exists_child hsupported hstarts hp hc
    rw [h.excludes hsupported] at hex
    exact ⟨p, c, hvisits, hparent, hex, h.below_iff.mp hx⟩
  · rintro ⟨p, c, hp, hc, hex, hx⟩
    refine ⟨f.node p, f.node c, (h.visits_iff hsupported hstarts).mpr hp, ?_, ?_, h.below hx⟩
    · rw [h.parentOf, hc]
      rfl
    · rw [h.excludes hsupported, hex]

/-- Pruning makes a renamed finding exactly when it makes the first one. -/
theorem finds_iff (h : Renamed f a b) (g : Finding) :
    rb.Finds b starts' (g.rename f) ↔ ra.Finds a starts g := by
  constructor
  · rintro ⟨p', c', hp, hc, hg⟩
    obtain ⟨p, c, hvisits, hparent, rfl⟩ := h.exists_child hsupported hstarts hp hc
    rw [h.visitFindings, List.mem_map_of_injective (Finding.rename_injective f)] at hg
    exact ⟨p, c, hvisits, hparent, hg⟩
  · rintro ⟨p, c, hp, hc, hg⟩
    refine ⟨f.node p, f.node c, (h.visits_iff hsupported hstarts).mpr hp, ?_, ?_⟩
    · rw [h.parentOf, hc]
      rfl
    · rw [h.visitFindings]
      exact List.mem_map_of_mem hg

/-! ## What is left -/

omit hstarts in
/-- What is left of a renamed statement is what is left of the first one, renamed. -/
theorem cutBack (h : Renamed f a b) {n m : Node} (hnm : n.Renamed f m) (x : NodeId) :
    (ra.cutBack a (a.childrenOf x) n).Renamed f (rb.cutBack b (b.childrenOf (f.node x)) m) := by
  have hnames : ((b.childrenOf (f.node x)).filter (rb.excludes b)).filterMap
        (FeatureRegistry.removedNameOf? b) =
      ((a.childrenOf x).filter (ra.excludes a)).filterMap
        (FeatureRegistry.removedNameOf? a) := by
    rw [h.childrenOf, List.filter_map, List.filterMap_map]
    have hexcludes : rb.excludes b ∘ f.node = ra.excludes a := funext (h.excludes hsupported)
    have hname : FeatureRegistry.removedNameOf? b ∘ f.node =
        FeatureRegistry.removedNameOf? a := funext h.removedNameOf?
    rw [hexcludes, hname]
  have hchildren : (m.children.filter fun c =>
        !((b.childrenOf (f.node x)).contains c && rb.excludes b c)) =
      (n.children.filter fun c => !((a.childrenOf x).contains c && ra.excludes a c)).map
        f.node := by
    rw [hnm.children, h.childrenOf, List.filter_map]
    refine congrArg (List.map f.node) (List.filter_congr fun c _ => ?_)
    have hmem : f.node c ∈ (a.childrenOf x).map f.node ↔ c ∈ a.childrenOf x :=
      List.mem_map_of_injective f.node.injective
    rw [Function.comp_apply, h.excludes hsupported, List.contains_eq_mem, List.contains_eq_mem,
      decide_eq_decide.mpr hmem]
  have hdata : m.data = n.data := (congrArg Node.data hnm.bare_eq :)
  rw [Node.Renamed, FeatureRegistry.cutBack, FeatureRegistry.cutBack, hnames, hchildren, hdata]
  have hbare := hnm.bare_eq
  obtain ⟨⟩ := m
  obtain ⟨⟩ := n
  simp only [Node.bare, Node.rename, Node.mk.injEq] at hbare ⊢
  simp [hbare]

/-- Statements under new numbers are pruned in the same way. -/
theorem pruned (h : Renamed f a b) (ha : ra.Pruned starts a a' findings)
    (hb : rb.Pruned starts' b b' findings') :
    Renamed f a' b' ∧ ∀ g : Finding, g.rename f ∈ findings' ↔ g ∈ findings := by
  refine ⟨⟨?_, ?_, fun x => ?_, fun r => ?_⟩, fun g => ?_⟩
  · rw [hb.size, ha.size, h.size]
  · rw [hb.trees, ha.trees, h.size_trees]
  · by_cases hremoves : ra.Removes a starts x
    · rw [ha.removed x hremoves, hb.removed _ ((h.removes_iff hsupported hstarts).mpr hremoves)]
      rfl
    by_cases hvisits : ra.Visits a starts x
    · rw [ha.visited x hvisits, hb.visited _ ((h.visits_iff hsupported hstarts).mpr hvisits)]
      rcases hn : a.get? x with _ | n
      · rw [h.get?_eq_none hn]
        rfl
      · obtain ⟨m, hm, hnm⟩ := h.exists_get? hn
        rw [hm]
        exact congrArg some (h.cutBack hsupported hnm x)
    · rw [ha.other x hvisits hremoves,
        hb.other _ (fun hx => hvisits ((h.visits_iff hsupported hstarts).mp hx))
          fun hx => hremoves ((h.removes_iff hsupported hstarts).mp hx)]
      exact h.get? x
  · simp only [Store.tree?, ha.trees, hb.trees]
    exact h.tree? r
  · rw [ha.mem_findings, hb.mem_findings, h.finds_iff hsupported hstarts]

end Starts
end Supported
end Store.Renamed
end StatementForest
