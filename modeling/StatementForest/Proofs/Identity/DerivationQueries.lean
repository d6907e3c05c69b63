import Mathlib.Data.List.Flatten
import StatementForest.Proofs.Store.ReachableStores
import StatementForest.Proofs.Identity.BaseReferences

/-!
# What a registry tells of derivation

The registry of trees with different identities answers every question about derivation as the
`base` statements of the trees do.  Of these, each that refers to an identity makes a step.  Each
of the others is told of in one finding, which comes with collecting when its qualifier is not
bound and with freezing when the identity is missing.

Main results:

- Theorem `IdentityCollection.Distinct.findings_of_mem`,
  `IdentityCollection.Distinct.findings_of_not_mem`: the findings about a `base`.
- Theorem `IdentityCollection.freeze_reflects`: what the registry and its findings tell.

Current gaps:

- The trees define different identities.  What a registry tells when several trees define one
  identity is stated for their order only, by `IdentityCollection.ofTrees_agree`.
-/

namespace StatementForest

open Store

/-! ## What is to be told -/

namespace Store

/-- A `base` of an identity refers to none. -/
def Dangling (s : Store) (roots : List RootId) (y : NodeId) : Prop :=
  ∃ derived x n, s.DefinedBy roots derived x n ∧ y ∈ s.childrenOfKeyword x .base ∧
    ∀ base, ¬ s.Connects roots y base derived

/-- The finding about a `base` of an identity of the module `home` that refers to none. -/
inductive BaseFinding (s : Store) (roots : List RootId) (home : String) (y : NodeId) (m : Node) :
    Finding → Prop
  | unbound {qualifier : String} (h : m.Unbound qualifier) :
      BaseFinding s roots home y m (IdentityCollection.unboundBaseQualifier y m qualifier)
  | missing {key : Key} (href : m.RefersTo home key)
      (hnone : ∀ i, s.Known roots i → i.key ≠ key) :
      BaseFinding s roots home y m (IdentityRegistry.missingBase ⟨key, y, m.element.origin⟩)

end Store

/-- A registry and the findings that came with it tell what the statements of some trees say
about identities. -/
structure IdentityRegistry.ReflectsBases (s : Store) (roots : List RootId) (r : IdentityRegistry)
    (findings : List Finding) : Prop where
  /-- The identities of the trees are kept with their statements. -/
  statementOf?_eq_some_iff : ∀ i x, r.statementOf? i = some x ↔ ∃ n, s.DefinedBy roots i x n
  /-- A module and a name stand for one identity, whatever the namespace. -/
  known_inj : ∀ i j, s.Known roots i → s.Known roots j → i.key = j.key → i = j
  edge_iff : ∀ base derived, r.Edge base derived ↔ s.Derives roots base derived
  mem_derivatives_iff : ∀ base derived, derived ∈ r.derivatives base ↔ r.Edge base derived
  mem_bases_iff : ∀ base derived, base ∈ r.bases derived ↔ derived ∈ r.derivatives base
  mem_closure_iff : ∀ i, s.Known roots i → ∀ j,
    (j ∈ r.closure i ↔ Relation.ReflTransGen (s.Derives roots) i j)
  closure_eq_nil : ∀ i, ¬ s.Known roots i → r.closure i = []
  isDerivedFrom_iff : ∀ derived base,
    r.isDerivedFrom derived base = true ↔ derived ∈ r.closure base
  /-- A `base` of an identity that gives no step is told of in one finding. -/
  dangling : ∀ derived x n y m, s.DefinedBy roots derived x n →
    y ∈ s.childrenOfKeyword x .base → s.get? y = some m →
      (∀ base, ¬ s.Connects roots y base derived) →
        ∃ f, s.BaseFinding roots n.element.scope.home y m f ∧
          findings.filter (fun f => f.node? = some y) = [f]
  /-- No other `base` is told of. -/
  quiet : ∀ y m, s.get? y = some m → m.isKeyword .base = true → ¬ s.Dangling roots y →
    findings.filter (fun f => f.node? = some y) = []

namespace IdentityCollection

variable {s : Store} {roots : List RootId} {home : String} {x y : NodeId} {n m : Node}
  {i j base derived : GlobalName}

/-! ## Findings about one statement -/

section About

variable {α : Type} {l : List α} {id : α → NodeId} {f : α → Option Finding} {a : α}

/-- No finding is about a statement that was not looked at. -/
theorem filter_filterMap_of_not_mem (hf : ∀ a ∈ l, ∀ g, f a = some g → g.node? = some (id a))
    (hy : y ∉ l.map id) : (l.filterMap f).filter (fun g => g.node? = some y) = [] := by
  rw [List.filter_eq_nil_iff]
  intro g hg hnode
  obtain ⟨a, ha, hag⟩ := List.mem_filterMap.mp hg
  rw [decide_eq_true_eq, hf a ha g hag, Option.some.injEq] at hnode
  exact hy (hnode ▸ List.mem_map_of_mem ha)

/-- Among findings about different statements, those about one of them. -/
theorem filter_filterMap_of_mem (hf : ∀ a ∈ l, ∀ g, f a = some g → g.node? = some (id a))
    (hnodup : (l.map id).Nodup) (ha : a ∈ l) :
    (l.filterMap f).filter (fun g => g.node? = some (id a)) = (f a).toList := by
  obtain ⟨earlier, later, rfl⟩ := List.append_of_mem ha
  rw [List.map_append, List.map_cons, List.nodup_middle, List.nodup_cons, List.mem_append,
    not_or] at hnodup
  rw [List.filterMap_append, List.filter_append, List.filterMap_cons,
    filter_filterMap_of_not_mem (fun b hb => hf b (List.mem_append_left _ hb)) hnodup.1.1,
    List.nil_append]
  have hlater := filter_filterMap_of_not_mem
    (fun b hb => hf b (List.mem_append_right _ (List.mem_cons_of_mem a hb))) hnodup.1.2
  rcases hfa : f a with _ | g
  · exact hlater
  · rw [List.filter_cons_of_pos (by simpa using hf a ha g hfa), hlater]
    rfl

end About

/-! ## Accounting for `base` statements -/

/-- The `base` statements of an identity, with its module. -/
def basesAt (s : Store) (home : String) (x : NodeId) : List (String × NodeId × Node) :=
  (s.childrenOfKeyword x .base).filterMap fun y => (s.get? y).map fun m => (home, y, m)

/-- The `base` statements of the identities of some trees, with the modules of these. -/
def baseStatements (s : Store) (roots : List RootId) : List (String × NodeId × Node) :=
  roots.flatMap fun q => (s.definitions .identity q).flatMap fun d =>
    basesAt s d.2.element.scope.home d.1

/-- What a `base` refers to, or the finding that it has no module. -/
def outcomeOf (b : String × NodeId × Node) : Except Finding BaseUse := resolveBase b.1 b.2.1 b.2.2

/-- A `base` statement is collected with its identity, which is defined in one of the trees. -/
theorem mem_baseStatements : (home, y, m) ∈ baseStatements s roots ↔
    ∃ derived x n, s.DefinedBy roots derived x n ∧ y ∈ s.childrenOfKeyword x .base ∧
      s.get? y = some m ∧ n.element.scope.home = home := by
  simp only [baseStatements, basesAt, List.mem_flatMap, List.mem_filterMap,
    Option.map_eq_some_iff, Prod.mk.injEq]
  constructor
  · rintro ⟨q, hq, d, hd, y', hy, m', hm, hhome, rfl, rfl⟩
    exact ⟨_, d.1, d.2, ⟨q, hq, hd, rfl⟩, hy, hm, hhome⟩
  · rintro ⟨derived, x, n, ⟨q, hq, hd, -⟩, hy, hm, hhome⟩
    exact ⟨q, hq, (x, n), hd, y, hy, m, hm, hhome, rfl, rfl⟩

/-- No statement is a `base` of two identities, or of one of them twice. -/
theorem Distinct.nodup_baseStatements (h : Distinct s roots) (w : s.Wired) :
    ((baseStatements s roots).map (·.2.1)).Nodup := by
  have hids : ((roots.flatMap (s.definitions .identity)).map (·.1)).Nodup := by
    refine List.pairwise_map.mpr ((List.pairwise_map.mp h).imp_of_mem ?_)
    rintro ⟨x, n⟩ ⟨x', n'⟩ hd hd' hne rfl
    obtain ⟨q, -, hq⟩ := List.mem_flatMap.mp hd
    obtain ⟨q', -, hq'⟩ := List.mem_flatMap.mp hd'
    obtain ⟨-, -, -, hn⟩ := mem_definitions.mp hq
    obtain ⟨-, -, -, hn'⟩ := mem_definitions.mp hq'
    rw [hn] at hn'
    cases hn'
    exact hne rfl
  refine (w.nodup_flatMap_children hids).sublist ?_
  rw [baseStatements, ← List.flatMap_assoc, List.map_flatMap, List.flatMap_map]
  refine List.Sublist.flatMap_right _ fun d _ => ?_
  have hlive : (basesAt s d.2.element.scope.home d.1).map (·.2.1) =
      (s.childrenOfKeyword d.1 .base).filter s.contains := by
    rw [basesAt, List.map_filterMap, ← List.filterMap_eq_filter]
    refine List.filterMap_congr fun y _ => ?_
    rw [Option.map_map, Option.guard, contains]
    rcases s.get? y with _ | m <;> rfl
  rw [hlive]
  exact List.filter_sublist.trans List.filter_sublist

/-- What the bases of an identity refer to is found statement by statement. -/
theorem basesOf_eq : basesOf s home x = (basesAt s home x).map outcomeOf := by
  rw [basesOf, basesAt, List.map_filterMap]
  refine List.filterMap_congr fun y _ => ?_
  rw [Option.map_map]
  rfl

/-- The finding about a `base` without a module. -/
def unresolvedAt? (b : String × NodeId × Node) : Option Finding :=
  match outcomeOf b with
  | .ok _ => none
  | .error finding => some finding

/-- The finding about a `base` that refers to no identity of a registry. -/
def missingAt? (r : IdentityRegistry) (b : String × NodeId × Node) : Option Finding :=
  match outcomeOf b with
  | .ok use =>
    if (r.positionOfKey? use.target).isNone then some (IdentityRegistry.missingBase use) else none
  | .error _ => none

/-- A finding about a `base` without a module is about this statement. -/
theorem node?_of_unresolvedAt? {b : String × NodeId × Node} {f : Finding}
    (h : unresolvedAt? b = some f) : f.node? = some b.2.1 := by
  rw [unresolvedAt?, outcomeOf] at h
  obtain ⟨key, -, hok⟩ | ⟨qualifier, -, herror⟩ := resolveBase_cases b.1 b.2.1 b.2.2
  · rw [hok] at h
    cases h
  · rw [herror] at h
    cases h
    rfl

/-- A finding about a `base` that refers to none is about this statement. -/
theorem node?_of_missingAt? {r : IdentityRegistry} {b : String × NodeId × Node} {f : Finding}
    (h : missingAt? r b = some f) : f.node? = some b.2.1 := by
  rw [missingAt?, outcomeOf] at h
  obtain ⟨key, -, hok⟩ | ⟨qualifier, -, herror⟩ := resolveBase_cases b.1 b.2.1 b.2.2
  · rw [hok] at h
    obtain ⟨-, heq⟩ := Option.ite_none_right_eq_some.mp h
    cases heq
    rfl
  · rw [herror] at h
    cases h

/-- The findings that come with collecting are those of all `base` statements. -/
theorem flatMap_unresolvedOf_eq :
    roots.flatMap (unresolvedOf s) = (baseStatements s roots).filterMap unresolvedAt? := by
  rw [baseStatements, List.filterMap_flatMap]
  refine List.flatMap_congr fun q _ => ?_
  rw [unresolvedOf, List.filterMap_flatMap]
  refine List.flatMap_congr fun d _ => ?_
  rw [unresolved, basesOf_eq, List.filterMap_map]
  rfl

/-- The bases of all entries are those of all `base` statements, in some order. -/
theorem Distinct.perm_bases (h : Distinct s roots) :
    ((frozen s roots).entries.flatMap (·.bases)).Perm
      (resolved ((baseStatements s roots).map outcomeOf)) := by
  refine (h.perm_entries.flatMap_right _).trans (List.Perm.of_eq ?_)
  rw [resolved, baseStatements, List.flatMap_map, List.flatMap_assoc, List.map_flatMap,
    List.filterMap_flatMap]
  refine List.flatMap_congr fun q _ => ?_
  rw [items, List.flatMap_map, List.map_flatMap, List.filterMap_flatMap]
  refine List.flatMap_congr fun d _ => ?_
  rw [entryOf, resolved, basesOf_eq]

/-- The findings about missing bases are those of all `base` statements, in some order. -/
theorem Distinct.perm_missing (h : Distinct s roots) :
    (((frozen s roots).entries.flatMap fun e => e.bases.filter fun use =>
        ((frozen s roots).positionOfKey? use.target).isNone).map
      IdentityRegistry.missingBase).Perm
      ((baseStatements s roots).filterMap (missingAt? (frozen s roots))) := by
  rw [← List.filter_flatMap]
  refine ((h.perm_bases.filter _).map _).trans (List.Perm.of_eq ?_)
  rw [resolved, List.filterMap_map, List.filter_filterMap, List.map_filterMap]
  refine List.filterMap_congr fun b _ => ?_
  rw [missingAt?, Function.comp_apply]
  rcases outcomeOf b with finding | use
  · rfl
  · simp only [Option.filter_some]
    split <;> rfl

/-- A finding about a cycle is about the statement of an identity. -/
theorem Distinct.not_base_of_cycle (h : Distinct s roots) {cycle : List GlobalName} {f : Finding}
    (hf : (frozen s roots).cycleFinding? cycle = some f) (hy : f.node? = some y)
    (hm : s.get? y = some m) : m.isKeyword .base = false := by
  simp only [IdentityRegistry.cycleFinding?, bind, Option.bind_eq_some_iff] at hf
  obtain ⟨first, -, e, he, hf⟩ := hf
  cases hf
  cases hy
  obtain ⟨q, -, ⟨x, n⟩, hd, rfl⟩ := h.mem_entries_iff.mp (List.mem_of_find?_eq_some he)
  obtain ⟨top, -, hkeyword, hn⟩ := mem_definitions.mp hd
  have hidentity := (List.mem_filter.mp hkeyword).2
  have heq : n = m := Option.some.inj (hn.symm.trans hm)
  rw [hn, Option.any_some, heq, Node.isKeyword, beq_iff_eq] at hidentity
  rw [Node.isKeyword, hidentity]
  rfl

/-- A list with the members of an optional value is its list. -/
theorem eq_toList_of_perm {α : Type} {l : List α} {o : Option α} (h : l.Perm o.toList) :
    l = o.toList := by
  rcases o with _ | a
  · exact h.eq_nil
  · exact List.perm_singleton.mp h

/-- The findings that come with collecting and with freezing. -/
def findingsOf (s : Store) (roots : List RootId) : List Finding :=
  roots.flatMap (unresolvedOf s) ++ (frozen s roots).findings

/-- All findings about a `base`, whether it belongs to an identity of the trees or not. -/
theorem Distinct.findings_about_eq (h : Distinct s roots) (hm : s.get? y = some m)
    (hbase : m.isKeyword .base = true) {f g : Option Finding}
    (hf : ((baseStatements s roots).filterMap unresolvedAt?).filter
      (fun f => f.node? = some y) = f.toList)
    (hg : ((baseStatements s roots).filterMap (missingAt? (frozen s roots))).filter
      (fun f => f.node? = some y) = g.toList) :
    (findingsOf s roots).filter (fun f => f.node? = some y) = f.toList ++ g.toList := by
  have hcycles : ((frozen s roots).cycles.filterMap (frozen s roots).cycleFinding?).filter
      (fun f => f.node? = some y) = [] := by
    rw [List.filter_eq_nil_iff]
    intro f hf hy
    obtain ⟨cycle, -, hcycle⟩ := List.mem_filterMap.mp hf
    rw [h.not_base_of_cycle hcycle (of_decide_eq_true hy) hm] at hbase
    cases hbase
  have hmissing := h.perm_missing.filter (fun f => f.node? = some y)
  rw [hg] at hmissing
  rw [findingsOf, IdentityRegistry.findings, List.filter_append, List.filter_append, hcycles,
    eq_toList_of_perm hmissing, List.append_nil, flatMap_unresolvedOf_eq, hf]

/-- The findings about a `base` of an identity. -/
theorem Distinct.findings_of_mem (h : Distinct s roots) (w : s.Wired)
    (hmem : (home, y, m) ∈ baseStatements s roots) (hbase : m.isKeyword .base = true) :
    (findingsOf s roots).filter (fun f => f.node? = some y) =
      (unresolvedAt? (home, y, m)).toList ++ (missingAt? (frozen s roots) (home, y, m)).toList := by
  obtain ⟨-, -, -, -, -, hm, -⟩ := mem_baseStatements.mp hmem
  exact h.findings_about_eq hm hbase
    (filter_filterMap_of_mem (fun _ _ _ => node?_of_unresolvedAt?) (h.nodup_baseStatements w) hmem)
    (filter_filterMap_of_mem (fun _ _ _ => node?_of_missingAt?) (h.nodup_baseStatements w) hmem)

/-- There are none about another `base`. -/
theorem Distinct.findings_of_not_mem (h : Distinct s roots) (hm : s.get? y = some m)
    (hbase : m.isKeyword .base = true) (hy : y ∉ (baseStatements s roots).map (·.2.1)) :
    (findingsOf s roots).filter (fun f => f.node? = some y) = [] :=
  h.findings_about_eq (f := none) (g := none) hm hbase
    (filter_filterMap_of_not_mem (fun _ _ _ => node?_of_unresolvedAt?) hy)
    (filter_filterMap_of_not_mem (fun _ _ _ => node?_of_missingAt?) hy)

/-- A `base` that gives no step is told of in one finding. -/
theorem Distinct.exists_baseFinding (h : Distinct s roots) (w : s.Wired)
    (hderived : s.DefinedBy roots derived x n) (hy : y ∈ s.childrenOfKeyword x .base)
    (hm : s.get? y = some m) (hnone : ∀ base, ¬ s.Connects roots y base derived) :
    ∃ f, s.BaseFinding roots n.element.scope.home y m f ∧
      (findingsOf s roots).filter (fun f => f.node? = some y) = [f] := by
  have hmem : (n.element.scope.home, y, m) ∈ baseStatements s roots :=
    mem_baseStatements.mpr ⟨derived, x, n, hderived, hy, hm, rfl⟩
  have hbase : m.isKeyword .base = true := by simpa [hm] using (List.mem_filter.mp hy).2
  rw [h.findings_of_mem w hmem hbase, unresolvedAt?, missingAt?, outcomeOf]
  obtain ⟨key, href, hok⟩ | ⟨qualifier, hunbound, herror⟩ :=
    resolveBase_cases n.element.scope.home y m
  · have hunknown : ∀ i, s.Known roots i → i.key ≠ key := fun i hi hkey =>
      hnone i ⟨hi, x, n, m, hderived, hy, hm, hkey ▸ href⟩
    have hposition : (frozen s roots).positionOfKey? key = none := by
      rw [← Option.not_isSome_iff_eq_none, h.positionOfKey?_isSome_iff]
      exact fun ⟨i, hi, hkey⟩ => hunknown i hi hkey
    exact ⟨_, .missing href hunknown, by simp [hok, hposition]⟩
  · exact ⟨_, .unbound hunbound, by simp [herror]⟩

/-- A `base` that gives a step is not told of. -/
theorem Distinct.findings_of_connects (h : Distinct s roots) (w : s.Wired)
    (hm : s.get? y = some m) (hbase : m.isKeyword .base = true)
    (hconnects : s.Connects roots y base derived) :
    (findingsOf s roots).filter (fun f => f.node? = some y) = [] := by
  obtain ⟨hknown, x, n, m', hderived, hy, hm', href⟩ := hconnects
  obtain rfl : m = m' := Option.some.inj (hm.symm.trans hm')
  have hmem : (n.element.scope.home, y, m) ∈ baseStatements s roots :=
    mem_baseStatements.mpr ⟨derived, x, n, hderived, hy, hm, rfl⟩
  obtain ⟨i, hi⟩ := Option.isSome_iff_exists.mp
    (h.positionOfKey?_isSome_iff.mpr ⟨base, hknown, rfl⟩)
  rw [h.findings_of_mem w hmem hbase, unresolvedAt?, missingAt?, outcomeOf,
    resolveBase_of_refersTo href y]
  simp [hi]

/-! ## What a registry tells -/

/-- A module and a name stand for one identity. -/
theorem Distinct.known_inj (h : Distinct s roots) (hi : s.Known roots i) (hj : s.Known roots j)
    (hkey : i.key = j.key) : i = j := by
  obtain ⟨e, he, rfl⟩ := h.registered_iff.mpr hi
  obtain ⟨e', he', rfl⟩ := h.registered_iff.mpr hj
  rw [List.inj_on_of_nodup_map h.sound.distinct he he' hkey]

/-- The closure of an identity are those that are derived from it by any number of steps. -/
theorem Distinct.mem_closure_iff (h : Distinct s roots) :
    j ∈ (frozen s roots).closure i ↔
      s.Known roots i ∧ Relation.ReflTransGen (s.Derives roots) i j := by
  have hedges : (frozen s roots).Edge = s.Derives roots :=
    funext fun _ => funext fun _ => propext h.edge_iff
  rw [h.sound.mem_closure_iff, h.registered_iff, hedges]

/-- Collecting the identities of trees with different identities succeeds, and what is frozen
then tells what the statements of the trees say. -/
theorem freeze_reflects (o : s.Owned) (hroots : ∀ q ∈ roots, q ∈ s.treeIds)
    (h : Distinct s roots) :
    ∃ c findings, ofTrees s roots = .ok (c, findings) ∧
      IdentityRegistry.ReflectsBases s roots c.freeze (findings ++ c.freeze.findings) := by
  refine ⟨_, _, ofTrees_of_subset o hroots, ?_⟩
  change IdentityRegistry.ReflectsBases s roots (frozen s roots) (findingsOf s roots)
  exact {
    statementOf?_eq_some_iff := fun _ _ =>
      h.sound.statementOf?_eq_some_iff.trans h.exists_entry_iff
    known_inj := fun _ _ => h.known_inj
    edge_iff := fun _ _ => h.edge_iff
    mem_derivatives_iff := fun _ _ => h.sound.mem_derivatives_iff
    mem_bases_iff := fun _ _ => h.sound.mem_bases_iff.trans h.sound.mem_derivatives_iff.symm
    mem_closure_iff := fun _ hi _ => h.mem_closure_iff.trans (and_iff_right hi)
    closure_eq_nil := fun _ hi =>
      List.eq_nil_iff_forall_not_mem.mpr fun _ hj => hi (h.mem_closure_iff.mp hj).1
    isDerivedFrom_iff := fun _ _ => h.sound.isDerivedFrom_iff
    dangling := fun _ _ _ _ _ => h.exists_baseFinding o.wired
    quiet := fun y m hm hbase hquiet => by
      by_cases hy : y ∈ (baseStatements s roots).map (·.2.1)
      · -- as it is not dangling, the `base` gives a step
        obtain ⟨⟨home, y, m'⟩, hmem, rfl⟩ := List.mem_map.mp hy
        obtain ⟨derived, x, n, hderived, hchild, -, -⟩ := mem_baseStatements.mp hmem
        have hconnects : ∃ base, s.Connects roots y base derived := Classical.byContradiction
          fun hnone => hquiet ⟨derived, x, n, hderived, hchild, not_exists.mp hnone⟩
        obtain ⟨base, hconnects⟩ := hconnects
        exact h.findings_of_connects o.wired hm hbase hconnects
      · exact h.findings_of_not_mem hm hbase hy }

/-! ## A ring of two identities -/

/-- The scope of a module, with a qualifier for it. -/
def sampleScope : Scope := Scope.bind ⟨"m", Dictionary.empty⟩ "m" "m"

/-- An element of a document of the module. -/
def sampleElement (name value : String) : Element where
  name := name
  value := some value
  line := none
  source := none
  scope := sampleScope
  children := []

/-- A module with two identities that are derived from each other.  The second one has a base
with a qualifier that is not bound. -/
def ringModule : Store :=
  let s := (({} : Store).addTree none .implement).2
  let s := (StoreM.plant {} (sampleElement "module" "m") ⟨0⟩ s).2
  let s := (StoreM.instantiate {} (sampleElement "identity" "a") (some ⟨0⟩) ⟨0⟩ s).2
  let s := (StoreM.instantiate {} (sampleElement "base" "m:b") (some ⟨1⟩) ⟨0⟩ s).2
  let s := (StoreM.instantiate {} (sampleElement "identity" "b") (some ⟨0⟩) ⟨0⟩ s).2
  let s := (StoreM.instantiate {} (sampleElement "base" "a") (some ⟨3⟩) ⟨0⟩ s).2
  (StoreM.instantiate {} (sampleElement "base" "x:a") (some ⟨3⟩) ⟨0⟩ s).2

/-- This store can be reached by operations. -/
theorem reachable_ringModule : Reachable ringModule :=
  (Reachable.empty.addTree none .implement).plant _ _ _ |>.instantiate _ _ _ _
    |>.instantiate _ _ _ _ |>.instantiate _ _ _ _ |>.instantiate _ _ _ _ |>.instantiate _ _ _ _

/-- What is read off a statement is what it holds. -/
theorem read_ringModule (x : NodeId) (text : String)
    (h : (ringModule.get? x).map (fun n => (n.argument, n.element.scope)) =
      some (text, sampleScope)) :
    ∃ n, ringModule.get? x = some n ∧ n.argument = text ∧ n.element.scope = sampleScope := by
  obtain ⟨n, hn, heq⟩ := Option.map_eq_some_iff.mp h
  exact ⟨n, hn, Prod.mk.inj heq⟩

/-- The identities below the top are defined by this module. -/
theorem definedBy_ringModule (hn : ringModule.get? x = some n)
    (hscope : n.element.scope = sampleScope)
    (hx : x ∈ ringModule.childrenOfKeyword ⟨0⟩ .identity) :
    ringModule.DefinedBy [⟨0⟩] ⟨"", "m", n.argument⟩ x n := by
  have huri : ringModule.uriOf ⟨0⟩ = "" := by decide +kernel
  have htop : ringModule.topOf ⟨0⟩ = some ⟨0⟩ := by decide +kernel
  refine ⟨⟨0⟩, List.mem_singleton_self _, mem_definitions.mpr ⟨⟨0⟩, htop, hx, hn⟩, ?_⟩
  rw [huri, hscope]
  rfl

/-- Both identities are in the closure of each other, and the closure of an identity of another
namespace is empty.  The base without a module is told of once. -/
theorem freeze_reflects_ringModule :
    ringModule.Owned ∧ (∀ q ∈ [(⟨0⟩ : RootId)], q ∈ ringModule.treeIds) ∧
      Distinct ringModule [⟨0⟩] ∧
      ∃ c findings, ofTrees ringModule [⟨0⟩] = .ok (c, findings) ∧
        ⟨"", "m", "b"⟩ ∈ c.freeze.closure ⟨"", "m", "a"⟩ ∧
        c.freeze.isDerivedFrom ⟨"", "m", "a"⟩ ⟨"", "m", "b"⟩ = true ∧
        c.freeze.closure ⟨"urn:m", "m", "a"⟩ = [] ∧
        ∃ f, (findings ++ c.freeze.findings).filter (fun f => f.node? = some ⟨5⟩) = [f] := by
  have hroots : ∀ q ∈ [(⟨0⟩ : RootId)], q ∈ ringModule.treeIds := by decide +kernel
  have hdistinct : Distinct ringModule [⟨0⟩] := by decide +kernel
  obtain ⟨c, findings, hok, hbases⟩ :=
    freeze_reflects reachable_ringModule.owned hroots hdistinct
  obtain ⟨a, ha, haname, hascope⟩ := read_ringModule ⟨1⟩ "a" (by decide +kernel)
  obtain ⟨b, hb, hbname, hbscope⟩ := read_ringModule ⟨3⟩ "b" (by decide +kernel)
  obtain ⟨toB, htoB, htoBname, htoBscope⟩ := read_ringModule ⟨2⟩ "m:b" (by decide +kernel)
  obtain ⟨toA, htoA, htoAname, -⟩ := read_ringModule ⟨4⟩ "a" (by decide +kernel)
  obtain ⟨stray, hstray, hstrayname, hstrayscope⟩ := read_ringModule ⟨5⟩ "x:a" (by decide +kernel)
  have hadefined := definedBy_ringModule ha hascope (by decide +kernel)
  have hbdefined := definedBy_ringModule hb hbscope (by decide +kernel)
  rw [haname] at hadefined
  rw [hbname] at hbdefined
  have hba : ringModule.Derives [⟨0⟩] ⟨"", "m", "b"⟩ ⟨"", "m", "a"⟩ := by
    have hargument : toB.argument = "m" ++ ":" ++ "b" := htoBname
    have howner : toB.element.scope.module? "m" = some "m" := by rw [htoBscope]; decide +kernel
    exact ⟨⟨2⟩, ⟨_, b, hbdefined⟩, _, a, toB, hadefined, by decide +kernel, htoB,
      .qualified hargument (by decide) howner⟩
  have hab : ringModule.Derives [⟨0⟩] ⟨"", "m", "a"⟩ ⟨"", "m", "b"⟩ := by
    have href : toA.RefersTo b.element.scope.home ⟨b.element.scope.home, toA.argument⟩ :=
      .own (by rw [htoAname]; decide)
    rw [htoAname] at href
    refine ⟨⟨4⟩, ⟨_, a, hadefined⟩, _, b, toA, hbdefined, by decide +kernel, htoA, ?_⟩
    rw [hbscope] at href ⊢
    exact href
  have hunbound : stray.Unbound "x" :=
    ⟨⟨"a", hstrayname⟩, by decide, by rw [hstrayscope]; decide +kernel⟩
  have hnone : ∀ base, ¬ ringModule.Connects [⟨0⟩] ⟨5⟩ base ⟨"", "m", "b"⟩ := by
    rintro base ⟨-, x, n, m, -, -, hm, href⟩
    obtain rfl : m = stray := Option.some.inj (hm.symm.trans hstray)
    exact hunbound.not_refersTo href
  refine ⟨reachable_ringModule.owned, hroots, hdistinct, c, findings, hok, ?_, ?_, ?_, ?_⟩
  · exact (hbases.mem_closure_iff _ ⟨_, a, hadefined⟩ _).mpr (.single hab)
  · exact (hbases.isDerivedFrom_iff _ _).mpr
      ((hbases.mem_closure_iff _ ⟨_, b, hbdefined⟩ _).mpr (.single hba))
  · refine hbases.closure_eq_nil _ fun hknown => ?_
    exact absurd (hbases.known_inj _ _ hknown ⟨_, a, hadefined⟩ rfl) (by decide)
  · obtain ⟨f, -, hf⟩ :=
      hbases.dangling _ _ b ⟨5⟩ stray hbdefined (by decide +kernel) hstray hnone
    exact ⟨f, hf⟩

end IdentityCollection

end StatementForest
