import StatementForest.Proofs.Schema.DefinitionCollection
import StatementForest.Proofs.Identity.GraphPositions

/-!
# What identities are derived from

An identity is derived from those that the `base` statements below its own statement refer to.
When the identities of some trees have different modules and names, the registry that is made of
them keeps each with its statement, and has a step for each of these references and no others.

Main results:

- Theorem `IdentityCollection.resolveBase_cases`: what a `base` refers to, or why to nothing.
- Theorem `IdentityCollection.Distinct.sound`, `IdentityCollection.Distinct.exists_entry_iff`:
  the identities of some trees make a sound registry, with their own statements.
- Theorem `IdentityCollection.Distinct.edge_iff`: its steps are the references.
-/

namespace StatementForest

open Store

/-! ## What a `base` refers to -/

/-- A text with a qualifier has it in front of its first colon. -/
theorem Text.splitAtFirst_colon_iff {text qualifier name : String} :
    splitAtFirst ':' text = some (qualifier, name) ↔
      text = qualifier ++ ":" ++ name ∧ ':' ∉ qualifier.toList := by
  rw [splitAtFirst_eq_some_iff, ← String.toList_inj]
  simp

/-- A `base` of an identity of the module `home` refers to a key.  The text before the first
colon stands for a module in the scope of the `base`; a name without one belongs to `home`. -/
inductive Node.RefersTo (home : String) (n : Node) : Key → Prop
  | own (h : ':' ∉ n.argument.toList) : RefersTo home n ⟨home, n.argument⟩
  | qualified {qualifier owner name : String} (hargument : n.argument = qualifier ++ ":" ++ name)
      (hfirst : ':' ∉ qualifier.toList) (howner : n.element.scope.module? qualifier = some owner) :
      RefersTo home n ⟨owner, name⟩

/-- The qualifier of a `base` stands for no module in its scope. -/
def Node.Unbound (n : Node) (qualifier : String) : Prop :=
  (∃ name, n.argument = qualifier ++ ":" ++ name) ∧ ':' ∉ qualifier.toList ∧
    n.element.scope.module? qualifier = none

namespace IdentityCollection

variable {home : String} {m : Node} {key : Key}

/-- A `base` that refers to a key is taken as a use of it. -/
theorem resolveBase_of_refersTo (h : m.RefersTo home key) (y : NodeId) :
    resolveBase home y m = .ok ⟨key, y, m.element.origin⟩ := by
  rw [resolveBase]
  cases h with
  | own hcolon => rw [Text.splitAtFirst_eq_none_iff.mpr hcolon]
  | qualified hargument hfirst howner =>
    simp only [Text.splitAtFirst_colon_iff.mpr ⟨hargument, hfirst⟩, howner]

/-- A `base` refers to a key, or its qualifier is not bound. -/
theorem resolveBase_cases (home : String) (y : NodeId) (m : Node) :
    (∃ key, m.RefersTo home key ∧
        resolveBase home y m = .ok ⟨key, y, m.element.origin⟩) ∨
      ∃ qualifier, m.Unbound qualifier ∧
        resolveBase home y m = .error (unboundBaseQualifier y m qualifier) := by
  rcases hsplit : Text.splitAtFirst ':' m.argument with _ | ⟨qualifier, name⟩
  · have href : m.RefersTo home ⟨home, m.argument⟩ :=
      .own (Text.splitAtFirst_eq_none_iff.mp hsplit)
    exact .inl ⟨_, href, resolveBase_of_refersTo href y⟩
  obtain ⟨hargument, hfirst⟩ := Text.splitAtFirst_colon_iff.mp hsplit
  rcases howner : m.element.scope.module? qualifier with _ | owner
  · refine .inr ⟨qualifier, ⟨⟨name, hargument⟩, hfirst, howner⟩, ?_⟩
    rw [resolveBase, hsplit]
    simp only [howner]
  · have href : m.RefersTo home ⟨owner, name⟩ := .qualified hargument hfirst howner
    exact .inl ⟨_, href, resolveBase_of_refersTo href y⟩

end IdentityCollection

/-- A `base` without a module refers to nothing. -/
theorem Node.Unbound.not_refersTo {home qualifier : String} {m : Node} {key : Key}
    (h : m.Unbound qualifier) : ¬ m.RefersTo home key := by
  obtain ⟨⟨name, hargument⟩, hfirst, hnone⟩ := h
  intro href
  have hok := IdentityCollection.resolveBase_of_refersTo href ⟨0⟩
  rw [IdentityCollection.resolveBase,
    Text.splitAtFirst_colon_iff.mpr ⟨hargument, hfirst⟩] at hok
  simp only [hnone] at hok
  cases hok

/-! ## What the statements say -/

namespace Store

/-- A statement at the top of one of some trees defines an identity. -/
def DefinedBy (s : Store) (roots : List RootId) (i : GlobalName) (x : NodeId) (n : Node) : Prop :=
  ∃ q ∈ roots, (x, n) ∈ s.definitions .identity q ∧
    i = ⟨s.uriOf q, n.element.scope.home, n.argument⟩

/-- An identity is defined in one of some trees. -/
def Known (s : Store) (roots : List RootId) (i : GlobalName) : Prop :=
  ∃ x n, s.DefinedBy roots i x n

/-- A `base` of the statement of one identity refers to another identity. -/
def Connects (s : Store) (roots : List RootId) (y : NodeId) (base derived : GlobalName) : Prop :=
  s.Known roots base ∧ ∃ x n m, s.DefinedBy roots derived x n ∧
    y ∈ s.childrenOfKeyword x .base ∧ s.get? y = some m ∧
      m.RefersTo n.element.scope.home base.key

/-- One identity is directly derived from another. -/
def Derives (s : Store) (roots : List RootId) (base derived : GlobalName) : Prop :=
  ∃ y, s.Connects roots y base derived

end Store

namespace IdentityCollection

variable {s : Store} {roots : List RootId} {home : String} {x y : NodeId} {n m : Node} {key : Key}
  {i base derived : GlobalName}

/-! ## The registry of some trees -/

/-- The identities of some trees, collected and frozen. -/
def frozen (s : Store) (roots : List RootId) : IdentityRegistry :=
  (⟨Roll.ofItems (roots.flatMap (items s))⟩ : IdentityCollection).freeze

/-- The identities of some trees have different modules and names. -/
def Distinct (s : Store) (roots : List RootId) : Prop :=
  ((roots.flatMap (s.definitions .identity)).map (·.2.definedKey)).Nodup

instance (s : Store) (roots : List RootId) : Decidable (Distinct s roots) :=
  inferInstanceAs (Decidable (List.Nodup _))

/-- No key of a collected identity is repeated. -/
theorem Distinct.nodup_items (h : Distinct s roots) :
    ((roots.flatMap (items s)).map (·.1)).Nodup := by
  rw [Distinct, List.map_flatMap] at h
  rw [List.map_flatMap]
  simp only [items, List.map_map]
  exact h

/-- Freezing keeps every identity that was collected. -/
theorem Distinct.perm_entries (h : Distinct s roots) :
    (frozen s roots).entries.Perm ((roots.flatMap (items s)).map (·.2)) := by
  refine (List.mergeSort_perm _ _).trans (List.Perm.of_eq ?_)
  rw [Roll.values, Roll.entries_ofItems_of_nodup h.nodup_items]

/-- The frozen identities are those that some tree defines. -/
theorem Distinct.mem_entries_iff (h : Distinct s roots) {e : IdentityEntry} :
    e ∈ (frozen s roots).entries ↔
      ∃ q ∈ roots, ∃ d ∈ s.definitions .identity q, entryOf s (s.uriOf q) d.1 d.2 = e := by
  rw [h.perm_entries.mem_iff, List.map_flatMap, List.mem_flatMap]
  simp only [items, List.map_map, List.mem_map, Function.comp_apply]

/-- The frozen registry is sound. -/
theorem Distinct.sound (h : Distinct s roots) : (frozen s roots).Sound := by
  refine IdentityRegistry.sound_ofSorted ((h.perm_entries.map (·.identity.key)).nodup_iff.mpr ?_)
  have hkeys : ((roots.flatMap (items s)).map (·.2)).map (·.identity.key) =
      (roots.flatMap (items s)).map (·.1) := by
    rw [List.map_map]
    refine List.map_congr_left fun item hitem => ?_
    obtain ⟨q, -, hq⟩ := List.mem_flatMap.mp hitem
    obtain ⟨d, -, rfl⟩ := List.mem_map.mp hq
    rfl
  rw [hkeys]
  exact h.nodup_items

/-- An entry tells of a statement that defines its identity. -/
theorem Distinct.exists_entry_iff (h : Distinct s roots) :
    (∃ e ∈ (frozen s roots).entries, e.identity = i ∧ e.node = x) ↔
      ∃ n, s.DefinedBy roots i x n := by
  simp only [h.mem_entries_iff]
  constructor
  · rintro ⟨_, ⟨q, hq, d, hd, rfl⟩, rfl, rfl⟩
    exact ⟨d.2, q, hq, hd, rfl⟩
  · rintro ⟨n, q, hq, hd, rfl⟩
    exact ⟨_, ⟨q, hq, (x, n), hd, rfl⟩, rfl, rfl⟩

/-- The registered identities are the known ones. -/
theorem Distinct.registered_iff (h : Distinct s roots) :
    (frozen s roots).Registered i ↔ s.Known roots i := by
  simp only [Known, ← h.exists_entry_iff]
  constructor
  · rintro ⟨e, he, hi⟩
    exact ⟨e.node, e, he, hi, rfl⟩
  · rintro ⟨x, e, he, hi, -⟩
    exact ⟨e, he, hi⟩

/-- An identity is found under its key, and under no other. -/
theorem Distinct.positionOfKey?_isSome_iff (h : Distinct s roots) :
    ((frozen s roots).positionOfKey? key).isSome = true ↔ ∃ i, s.Known roots i ∧ i.key = key := by
  simp only [Option.isSome_iff_exists, h.sound.positionOfKey?_eq_some_iff, ← h.registered_iff]
  constructor
  · rintro ⟨p, e, he, hkey⟩
    exact ⟨e.identity, ⟨e, List.mem_of_getElem? he, rfl⟩, hkey⟩
  · rintro ⟨-, ⟨e, he, rfl⟩, hkey⟩
    obtain ⟨p, hp⟩ := List.mem_iff_getElem?.mp he
    exact ⟨p, e, hp, hkey⟩

/-! ## Steps -/

/-- What the bases of an entry refer to is what the `base` statements refer to. -/
theorem exists_base_iff : (∃ use ∈ resolved (basesOf s home x), use.target = key) ↔
    ∃ y ∈ s.childrenOfKeyword x .base, ∃ m, s.get? y = some m ∧ m.RefersTo home key := by
  simp only [resolved, basesOf, List.mem_filterMap, Option.map_eq_some_iff]
  constructor
  · rintro ⟨use, ⟨outcome, ⟨y, hy, m, hm, rfl⟩, huse⟩, rfl⟩
    obtain ⟨key, href, hok⟩ | ⟨qualifier, -, herror⟩ := resolveBase_cases home y m
    · rw [hok] at huse
      cases huse
      exact ⟨y, hy, m, hm, href⟩
    · rw [herror] at huse
      cases huse
  · rintro ⟨y, hy, m, hm, href⟩
    exact ⟨_, ⟨_, ⟨y, hy, m, hm, resolveBase_of_refersTo href y⟩, rfl⟩, rfl⟩

/-- The steps of the registry are the references of the `base` statements. -/
theorem Distinct.edge_iff (h : Distinct s roots) :
    (frozen s roots).Edge base derived ↔ s.Derives roots base derived := by
  have hedge : (frozen s roots).Edge base derived ↔ _ :=
    IdentityRegistry.edge_ofSorted_iff h.sound.distinct
  have hknown : s.Known roots base ↔ ∃ e ∈ (frozen s roots).entries, e.identity = base :=
    h.registered_iff.symm
  rw [hedge, Derives]
  simp only [Connects, hknown]
  constructor
  · rintro ⟨e, he, e', he', hbase, rfl, huse⟩
    obtain ⟨q, hq, d, hd, rfl⟩ := h.mem_entries_iff.mp he'
    obtain ⟨y, hy, m, hm, href⟩ := exists_base_iff.mp huse
    exact ⟨y, ⟨e, he, hbase⟩, d.1, d.2, m, ⟨q, hq, hd, rfl⟩, hy, hm, href⟩
  · rintro ⟨y, ⟨e, he, hbase⟩, x, n, m, ⟨q, hq, hd, rfl⟩, hy, hm, href⟩
    exact ⟨e, he, _, h.mem_entries_iff.mpr ⟨q, hq, (x, n), hd, rfl⟩, hbase, rfl,
      exists_base_iff.mpr ⟨y, hy, m, hm, href⟩⟩

end IdentityCollection
end StatementForest
