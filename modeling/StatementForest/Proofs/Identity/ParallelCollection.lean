import StatementForest.Proofs.Identity.DerivationCycles
import StatementForest.Proofs.Identity.DerivationQueries
import StatementForest.Proofs.Identity.FreezeOrder

/-!
# Identities that are collected side by side

Several trees may be collected at once, each by a task of its own.  A task takes in the identities
of its tree in their order, while those of other trees come in between.  Of several entries with
one key the last one stays, so the registry depends on nothing but which definition of each key
comes last.  When no two trees define one identity, that is the same in every order.

Main results:

- Theorem `Interleaves.filter_eq`: lists without common keys are merged into the same entries for
  every key.
- Theorem `Roll.exists_latest`: what comes last of all came last in one of the merged lists.
- Theorem `IdentityCollection.Keyed.freeze_eq_iff`: when two collections make the same registry.
- Theorem `IdentityCollection.ofTrees_agree`: what two orders of the trees have in common.
- Theorem `IdentityCollection.twoTrees_disagree`: two orders with different registries.

Current gaps:

- Tasks are interleaved entry by entry.  How entries are written into shared memory is not
  modelled.
-/

namespace StatementForest

/-! ## Merged lists -/

/-- Some lists are merged into one, each in its own order. -/
inductive Interleaves {α : Type} : List (List α) → List α → Prop
  | nil {lists : List (List α)} (h : ∀ l ∈ lists, l = []) : Interleaves lists []
  | cons {before after : List (List α)} {l merged : List α} {a : α}
      (h : Interleaves (before ++ l :: after) merged) :
      Interleaves (before ++ (a :: l) :: after) (a :: merged)

namespace Interleaves

variable {κ α : Type} [DecidableEq κ] {lists : List (List α)} {merged : List α}

/-- A list without elements adds nothing. -/
theorem cons_nil (h : Interleaves lists merged) : Interleaves ([] :: lists) merged := by
  induction h with
  | nil h => exact .nil (List.forall_mem_cons.mpr ⟨rfl, h⟩)
  | @cons before after l merged a h ih =>
    exact @Interleaves.cons _ ([] :: before) after l merged a ih

/-- One list after another is one way to merge them. -/
theorem flatten (lists : List (List α)) : Interleaves lists lists.flatten := by
  induction lists with
  | nil => exact .nil (by simp)
  | cons l rest ih =>
    induction l with
    | nil => exact ih.cons_nil
    | cons a l ihl => exact @Interleaves.cons _ [] rest l _ a ihl

/-- What is merged is what one of the lists holds. -/
theorem mem_iff (h : Interleaves lists merged) {b : α} : b ∈ merged ↔ ∃ l ∈ lists, b ∈ l := by
  induction h with
  | nil h =>
    simp only [List.not_mem_nil, false_iff, not_exists, not_and]
    intro l hl hb
    rw [h l hl] at hb
    cases hb
  | cons h ih =>
    simp only [List.mem_cons, ih, List.mem_append, or_and_right, exists_or, exists_eq_left]
    rw [or_left_comm]
    simp only [or_assoc]

/-- Lists without common keys are merged into the same entries for every key. -/
theorem filter_eq {lists : List (List (κ × α))} {merged : List (κ × α)}
    (h : Interleaves lists merged)
    (hapart : lists.Pairwise fun l l' => ∀ e ∈ l, ∀ e' ∈ l', e.1 ≠ e'.1) (key : κ) :
    merged.filter (fun e => e.1 = key) = lists.flatten.filter (fun e => e.1 = key) := by
  induction h with
  | nil h => simp [List.flatten_eq_nil_iff.mpr h]
  | @cons before after l merged a h ih =>
    have hbefore : a.1 = key → before.flatten.filter (fun e => e.1 = key) = [] := by
      intro ha
      refine List.filter_eq_nil_iff.mpr fun e he => ?_
      obtain ⟨l', hl', he⟩ := List.mem_flatten.mp he
      have hne := (List.pairwise_append.mp hapart).2.2 l' hl' _ List.mem_cons_self e he a
        List.mem_cons_self
      simpa [← ha] using hne
    have hless : (before ++ l :: after).Pairwise fun l l' => ∀ e ∈ l, ∀ e' ∈ l', e.1 ≠ e'.1 := by
      simp only [List.pairwise_append, List.pairwise_cons, List.mem_cons] at hapart ⊢
      obtain ⟨hfirst, ⟨hhead, hlast⟩, hcross⟩ := hapart
      refine ⟨hfirst, ⟨fun l' hl' e he => hhead l' hl' e (.inr he), hlast⟩, ?_⟩
      rintro l' hl' l'' (rfl | hl'') e he e' he'
      · exact hcross l' hl' _ (.inl rfl) e he e' (List.mem_cons_of_mem a he')
      · exact hcross l' hl' _ (.inr hl'') e he e' he'
    have hrest := ih hless
    simp only [List.flatten_append, List.flatten_cons, List.filter_append] at hrest ⊢
    by_cases ha : a.1 = key
    · rw [hbefore ha, List.nil_append] at hrest ⊢
      simp [ha, hrest]
    · simp [ha, hrest]

end Interleaves

/-! ## The last entry of a key -/

namespace Roll

variable {κ α : Type} [DecidableEq κ] {items items' : List (κ × α)} {key : κ}

/-- What was written last under a key. -/
def latest (items : List (κ × α)) (key : κ) : Option α := items.reverse.lookup key

/-- The last value that is written under a key replaces all others. -/
theorem find?_ofItems (items : List (κ × α)) (key : κ) :
    (ofItems items).find? key = latest items key := by
  have hwrite : ∀ r : Roll κ α,
      (r.writeAll items).find? key = (items.reverse.lookup key).or (r.find? key) := by
    induction items with
    | nil => exact fun _ => rfl
    | cons e rest ih =>
      intro r
      obtain ⟨k, v⟩ := e
      have hinsert : (r.insert k v).find? key = ([(k, v)].lookup key).or (r.find? key) := by
        by_cases hk : key = k
        · simp [hk]
        · simp [find?_insert_of_ne r v hk, List.lookup_cons, beq_false_of_ne hk]
      have hcons : r.writeAll ((k, v) :: rest) = (r.insert k v).writeAll rest := rfl
      rw [hcons, ih, hinsert, List.reverse_cons, List.lookup_append, Option.or_assoc]
  have hnone : ({} : Roll κ α).find? key = none := rfl
  rw [ofItems, hwrite, hnone, Option.or_none, latest]

/-- Only the entries of a key matter for what is written last under it. -/
theorem latest_filter (items : List (κ × α)) (key : κ) :
    latest (items.filter fun e => e.1 = key) key = latest items key := by
  have hlookup : ∀ items : List (κ × α),
      (items.filter fun e => e.1 = key).lookup key = items.lookup key := by
    intro items
    induction items with
    | nil => rfl
    | cons e rest ih =>
      obtain ⟨k, v⟩ := e
      by_cases hk : k = key
      · simp [hk]
      · simp [hk, List.lookup_cons, beq_false_of_ne (Ne.symm hk), ih]
  rw [latest, latest, ← List.filter_reverse, hlookup]

/-- What was written last is among the later entries, or is the first one. -/
theorem latest_cons (e : κ × α) (items : List (κ × α)) (key : κ) :
    latest (e :: items) key = (latest items key).or ([e].lookup key) := by
  rw [latest, List.reverse_cons, List.lookup_append, latest]

/-- Nothing was written under a key that no entry has. -/
theorem latest_eq_none_iff : latest items key = none ↔ ∀ e ∈ items, e.1 ≠ key := by
  rw [latest, List.lookup_eq_none_iff]
  simp only [List.mem_reverse, bne_iff_ne, ne_comm]

/-- What was written last of all was written last in one of the lists that were merged. -/
theorem exists_latest {lists : List (List (κ × α))} (h : Interleaves lists items) {v : α}
    (hv : latest items key = some v) : ∃ l ∈ lists, latest l key = some v := by
  induction h with
  | nil h => cases hv
  | @cons before after l merged a h ih =>
    rw [latest_cons] at hv
    cases hlast : latest merged key with
    | some w =>
      -- Something later has the key, in a list that `a` does not change.
      rw [hlast] at hv
      cases hv
      obtain ⟨l', hl', hw⟩ := ih hlast
      rw [List.mem_append, List.mem_cons] at hl'
      obtain hl' | rfl | hl' := hl'
      · exact ⟨l', by simp [hl'], hw⟩
      · exact ⟨a :: l', by simp, by rw [latest_cons, hw]; rfl⟩
      · exact ⟨l', by simp [hl'], hw⟩
    | none =>
      rw [hlast, Option.none_or] at hv
      have hnone : latest l key = none := latest_eq_none_iff.mpr fun e he =>
        latest_eq_none_iff.mp hlast e (h.mem_iff.mpr ⟨l, by simp, he⟩)
      exact ⟨a :: l, by simp, by rw [latest_cons, hnone, Option.none_or, hv]⟩

end Roll

/-! ## When two collections make one registry -/

/-- Keeping every number keeps an entry. -/
theorem IdentityEntry.rename_refl : IdentityEntry.rename .refl = id := by
  funext e
  have hbases : e.bases.map (BaseUse.rename .refl) = e.bases := List.map_id _
  rw [rename, hbases]
  rfl

namespace IdentityCollection

variable {c d : IdentityCollection} {key : Key} {e : IdentityEntry}

/-- The registry has the entries that are found. -/
theorem Keyed.find?_eq_some_iff (h : c.Keyed) :
    c.entries.find? key = some e ↔ e ∈ c.freeze.entries ∧ e.identity.key = key := by
  rw [Roll.find?_eq_some_iff h.nodup, (perm_entries_freeze c).mem_iff, Roll.values, List.mem_map]
  constructor
  · intro hmem
    exact ⟨⟨_, hmem, rfl⟩, h.own _ hmem⟩
  · rintro ⟨⟨item, hmem, rfl⟩, rfl⟩
    rwa [h.own item hmem]

/-- Two collections make the same registry when they have the same entry for every key. -/
theorem Keyed.freeze_eq_iff (hc : c.Keyed) (hd : d.Keyed) :
    d.freeze = c.freeze ↔ ∀ key, d.entries.find? key = c.entries.find? key := by
  constructor
  · intro heq key
    refine Option.ext fun e => ?_
    rw [hc.find?_eq_some_iff, hd.find?_eq_some_iff, heq]
  · intro hsame
    have hnodup : ∀ {c : IdentityCollection}, c.Keyed → c.entries.entries.Nodup :=
      fun h => List.Nodup.of_map Prod.fst h.nodup
    have hperm : d.entries.entries.Perm c.entries.entries := by
      refine (List.perm_ext_iff_of_nodup (hnodup hd) (hnodup hc)).mpr fun item => ?_
      rw [← Roll.find?_eq_some_iff hc.nodup, ← Roll.find?_eq_some_iff hd.nodup, hsame]
    have hself : c.entries.entries.map (Prod.map id (IdentityEntry.rename .refl)) =
        c.entries.entries := by
      rw [IdentityEntry.rename_refl, Prod.map_id, List.map_id]
    have hfreeze := freeze_of_perm (f := .refl) (hself.symm ▸ hperm) hc.nodup hc.own
    rw [hfreeze, IdentityEntry.rename_refl, List.map_id]
    rfl

/-! ## Trees in any order -/

open Store

variable {s : Store} {roots roots' : List RootId}

/-- No two of some trees define one identity. -/
def Separate (s : Store) (roots : List RootId) : Prop :=
  roots.Pairwise fun q r => ∀ d ∈ s.definitions .identity q, ∀ e ∈ s.definitions .identity r,
    d.2.definedKey ≠ e.2.definedKey

instance (s : Store) (roots : List RootId) : Decidable (Separate s roots) :=
  inferInstanceAs (Decidable (List.Pairwise _ _))

/-- The identities of some trees are taken in side by side. -/
def CollectsInterleaved (s : Store) (roots : List RootId) (c : IdentityCollection) : Prop :=
  ∃ merged, Interleaves (roots.map (items s)) merged ∧ c = ⟨Roll.ofItems merged⟩

/-- Each entry that is taken in stands under its own key. -/
theorem CollectsInterleaved.keyed (h : CollectsInterleaved s roots c) : c.Keyed := by
  obtain ⟨merged, hmerged, rfl⟩ := h
  refine keyed_ofItems fun item hitem => ?_
  obtain ⟨l, hl, hitem⟩ := hmerged.mem_iff.mp hitem
  obtain ⟨q, -, rfl⟩ := List.mem_map.mp hl
  exact own_of_mem_items hitem

/-- Taking in one tree after another is one way to take them in side by side. -/
theorem collectsInterleaved_collected (s : Store) (roots : List RootId) :
    CollectsInterleaved s roots ⟨Roll.ofItems (roots.flatMap (items s))⟩ := by
  refine ⟨_, ?_, rfl⟩
  rw [List.flatMap_def]
  exact .flatten _

/-- In whatever order the identities are taken in, they are the same ones. -/
theorem CollectsInterleaved.contains_eq (h : CollectsInterleaved s roots' d)
    (h' : CollectsInterleaved s roots c)
    (hperm : roots'.Perm roots) (key : Key) : d.entries.contains key = c.entries.contains key := by
  obtain ⟨merged, hmerged, rfl⟩ := h
  obtain ⟨merged', hmerged', rfl⟩ := h'
  have hmem : ∀ item, item ∈ merged ↔ item ∈ merged' := fun item => by
    rw [hmerged.mem_iff, hmerged'.mem_iff]
    simp only [List.mem_map, exists_exists_and_eq_and, hperm.mem_iff]
  rw [Bool.eq_iff_iff, Roll.contains_iff, Roll.contains_iff, Roll.ofItems, Roll.ofItems,
    Roll.mem_keys_writeAll, Roll.mem_keys_writeAll]
  simp only [hmem]

/-- Each identity has the last definition that one of the trees has of it. -/
theorem CollectsInterleaved.exists_latest (h : CollectsInterleaved s roots c)
    (he : c.entries.find? key = some e) :
    ∃ q ∈ roots, Roll.latest (items s q) key = some e := by
  obtain ⟨merged, hmerged, rfl⟩ := h
  rw [Roll.find?_ofItems] at he
  obtain ⟨l, hl, hlast⟩ := Roll.exists_latest hmerged he
  obtain ⟨q, hq, rfl⟩ := List.mem_map.mp hl
  exact ⟨q, hq, hlast⟩

/-- Trees that define different identities have no key in common. -/
theorem Separate.pairwise_items (h : Separate s roots) :
    roots.Pairwise fun q r => ∀ e ∈ items s q, ∀ e' ∈ items s r, e.1 ≠ e'.1 := by
  refine h.imp fun {q r} hne e he e' he' => ?_
  obtain ⟨d, hd, rfl⟩ := List.mem_map.mp he
  obtain ⟨d', hd', rfl⟩ := List.mem_map.mp he'
  exact hne d hd d' hd'

/-- The order of some trees does not matter to whether they define different identities. -/
theorem Separate.perm (h : Separate s roots) (hperm : roots'.Perm roots) : Separate s roots' :=
  (hperm.pairwise_iff fun hne d hd e he => (hne e he d hd).symm).mpr h

/-- When no two trees define one identity, the last definition does not depend on their order. -/
theorem Separate.latest_eq (h : Separate s roots) (hperm : roots'.Perm roots) (key : Key) :
    Roll.latest (roots'.flatMap (items s)) key = Roll.latest (roots.flatMap (items s)) key := by
  have hmap : (roots.map id).Perm roots' := by
    rw [List.map_id]
    exact hperm.symm
  have hentries : (Roll.ofItems (roots'.flatMap (items s))).entries.Perm
      ((Roll.ofItems (roots.flatMap (items s))).entries.map (Prod.map id id)) :=
    Roll.perm_ofItems hmap (by simp) h.pairwise_items
  have hfind := Roll.find?_of_perm hentries (Roll.nodup_keys_ofItems _) key
  rwa [Option.map_id, Roll.find?_ofItems, Roll.find?_ofItems] at hfind

/-- When no two trees define one identity, each identity has the entry of its tree. -/
theorem CollectsInterleaved.find?_of_separate (h : CollectsInterleaved s roots c)
    (hseparate : Separate s roots)
    (key : Key) : c.entries.find? key = Roll.latest (roots.flatMap (items s)) key := by
  obtain ⟨merged, hmerged, rfl⟩ := h
  have hapart : (roots.map (items s)).Pairwise fun l l' => ∀ e ∈ l, ∀ e' ∈ l', e.1 ≠ e'.1 :=
    List.pairwise_map.mpr hseparate.pairwise_items
  rw [Roll.find?_ofItems, ← Roll.latest_filter, hmerged.filter_eq hapart, Roll.latest_filter,
    List.flatMap_def]

/-- What two orders of some trees have in common. -/
structure SameDefinitions (s : Store) (roots roots' : List RootId) (c c' : IdentityCollection) :
    Prop where
  /-- Both have an entry for the same keys. -/
  contains : ∀ key, c'.entries.contains key = c.entries.contains key
  /-- Both make the same registry exactly when every key has the same last definition. -/
  freeze_iff : c'.freeze = c.freeze ↔ ∀ key,
    Roll.latest (roots'.flatMap (items s)) key = Roll.latest (roots.flatMap (items s)) key
  /-- Taking the identities in side by side, in whatever order, finds the same keys. -/
  keys : ∀ d, CollectsInterleaved s roots' d →
      ∀ key, d.entries.contains key = c.entries.contains key
  /-- Each entry that is found so is the last definition of its key in one of the trees. -/
  chosen : ∀ d, CollectsInterleaved s roots' d → ∀ key e, d.entries.find? key = some e →
    ∃ q ∈ roots, Roll.latest (items s q) key = some e
  /-- When no two trees define one identity, taking the identities in side by side, in whatever
  order, makes this registry as well. -/
  gathers : Separate s roots → ∀ d, CollectsInterleaved s roots' d → d.freeze = c.freeze

/-- The trees can be collected in any two orders, with the same findings about bases. -/
theorem ofTrees_agree (o : s.Owned) (hroots : ∀ q ∈ roots, q ∈ s.treeIds)
    (hperm : roots'.Perm roots) : ∃ c findings c' findings', ofTrees s roots = .ok (c, findings) ∧
      ofTrees s roots' = .ok (c', findings') ∧ findings'.Perm findings ∧
      SameDefinitions s roots roots' c c' := by
  have hroots' : ∀ q ∈ roots', q ∈ s.treeIds := fun q hq => hroots q (hperm.mem_iff.mp hq)
  refine ⟨_, _, _, _, ofTrees_of_subset o hroots, ofTrees_of_subset o hroots',
    hperm.flatMap_right _, ?_, ?_, ?_, ?_, ?_⟩
  · exact (collectsInterleaved_collected s roots').contains_eq
      (collectsInterleaved_collected s roots) hperm
  · have hkeyed := (collectsInterleaved_collected s roots).keyed
    rw [hkeyed.freeze_eq_iff (collectsInterleaved_collected s roots').keyed]
    simp only [Roll.find?_ofItems]
  · exact fun d hd => hd.contains_eq (collectsInterleaved_collected s roots) hperm
  · intro d hd key e he
    obtain ⟨q, hq, hlast⟩ := hd.exists_latest he
    exact ⟨q, hperm.mem_iff.mp hq, hlast⟩
  · intro hseparate d hd
    refine ((collectsInterleaved_collected s roots).keyed.freeze_eq_iff hd.keyed).mpr fun key => ?_
    rw [hd.find?_of_separate (hseparate.perm hperm), hseparate.latest_eq hperm, Roll.find?_ofItems]

/-- Two trees of a module, each with one identity. -/
def twoTrees (first second : String) : Store :=
  let s := (({} : Store).addTree none .implement).2
  let s := (StoreM.plant {} (sampleElement "module" "m") ⟨0⟩ s).2
  let s := (StoreM.instantiate {} (sampleElement "identity" first) (some ⟨0⟩) ⟨0⟩ s).2
  let s := (s.addTree none .implement).2
  let s := (StoreM.plant {} (sampleElement "module" "m") ⟨1⟩ s).2
  (StoreM.instantiate {} (sampleElement "identity" second) (some ⟨2⟩) ⟨1⟩ s).2

/-- These stores can be reached by operations. -/
theorem reachable_twoTrees (first second : String) : Reachable (twoTrees first second) :=
  (Reachable.empty.addTree none .implement).plant _ _ _ |>.instantiate _ _ _ _
    |>.addTree _ _ |>.plant _ _ _ |>.instantiate _ _ _ _

/-- Two trees with different identities make the same registry in both orders. -/
theorem ofTrees_agree_twoTrees :
    (twoTrees "a" "b").Owned ∧ (∀ q ∈ [(⟨0⟩ : RootId), ⟨1⟩], q ∈ (twoTrees "a" "b").treeIds) ∧
      [(⟨1⟩ : RootId), ⟨0⟩].Perm [⟨0⟩, ⟨1⟩] ∧ Separate (twoTrees "a" "b") [⟨0⟩, ⟨1⟩] ∧
      ∃ c findings c' findings', ofTrees (twoTrees "a" "b") [⟨0⟩, ⟨1⟩] = .ok (c, findings) ∧
        ofTrees (twoTrees "a" "b") [⟨1⟩, ⟨0⟩] = .ok (c', findings') ∧
        findings'.Perm findings ∧ SameDefinitions (twoTrees "a" "b") [⟨0⟩, ⟨1⟩]
          [⟨1⟩, ⟨0⟩] c c' := by
  have hroots : ∀ q ∈ [(⟨0⟩ : RootId), ⟨1⟩], q ∈ (twoTrees "a" "b").treeIds := by decide +kernel
  have howned := (reachable_twoTrees "a" "b").owned
  have hseparate : Separate (twoTrees "a" "b") [⟨0⟩, ⟨1⟩] := by decide +kernel
  exact ⟨howned, hroots, .swap _ _ _, hseparate, ofTrees_agree howned hroots (.swap _ _ _)⟩

/-- Two trees that define one identity make different registries in different orders. -/
theorem twoTrees_disagree : ¬ ∀ (s : Store) (roots roots' : List RootId), s.Owned →
    (∀ q ∈ roots, q ∈ s.treeIds) → roots'.Perm roots → ∀ c findings c' findings',
      ofTrees s roots = .ok (c, findings) → ofTrees s roots' = .ok (c', findings') →
        c'.freeze = c.freeze := by
  intro hagree
  have hroots : ∀ q ∈ [(⟨0⟩ : RootId), ⟨1⟩], q ∈ (twoTrees "a" "a").treeIds := by decide +kernel
  have hroots' : ∀ q ∈ [(⟨1⟩ : RootId), ⟨0⟩], q ∈ (twoTrees "a" "a").treeIds := by decide +kernel
  have howned := (reachable_twoTrees "a" "a").owned
  have heq := hagree _ _ _ howned hroots (.swap _ _ _) _ _ _ _ (ofTrees_of_subset howned hroots)
    (ofTrees_of_subset howned hroots')
  have hkeyed := fun roots => (collectsInterleaved_collected (twoTrees "a" "a") roots).keyed
  have hsame := (hkeyed [⟨0⟩, ⟨1⟩]).freeze_eq_iff (hkeyed [⟨1⟩, ⟨0⟩]) |>.mp heq ⟨"m", "a"⟩
  rw [Roll.find?_ofItems, Roll.find?_ofItems] at hsame
  have hnodes : (Roll.latest ([⟨1⟩, ⟨0⟩].flatMap (items (twoTrees "a" "a"))) ⟨"m", "a"⟩).map
      (·.node) ≠ (Roll.latest ([⟨0⟩, ⟨1⟩].flatMap (items (twoTrees "a" "a"))) ⟨"m", "a"⟩).map
      (·.node) := by
    decide +kernel
  exact hnodes (congrArg (Option.map (·.node)) hsame)

end IdentityCollection
end StatementForest
