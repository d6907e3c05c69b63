import StatementForest.Proofs.Schema.DefinitionCollection

/-!
# Frozen identities do not depend on an order

Freezing puts the identities into the order of their names.  Identities with different keys
have different names, so there is one such order, and the positions in it give the edges of
the graph.

Main results:

- Theorem `GlobalName.precedes_trans`, `GlobalName.precedes_total`,
  `GlobalName.eq_of_precedes`: names are put in order in one way.
- Theorem `IdentityRegistry.graph_ofSorted_map`, `IdentityRegistry.findings_ofSorted_map`:
  other numbers of statements change neither the graph nor, apart from them, the findings.
- Theorem `IdentityCollection.freeze_of_perm`: identities that were collected in another
  order are frozen into the same entries.
-/

namespace StatementForest

/-! ## The order of names -/

namespace GlobalName

variable {a b c : GlobalName}

/-- Names are compared part by part. -/
instance : Std.TransCmp GlobalName.compare :=
  inferInstanceAs (Std.TransCmp (compareLex (compareOn GlobalName.namespaceUri)
    (compareLex (compareOn GlobalName.module) (compareOn GlobalName.localName))))

/-- What precedes a name precedes all that this one precedes. -/
theorem precedes_trans (hab : a.precedes b = true) (hbc : b.precedes c = true) :
    a.precedes c = true :=
  Std.TransCmp.isLE_trans hab hbc

/-- Of two names one precedes the other. -/
theorem precedes_total (a b : GlobalName) : (a.precedes b || b.precedes a) = true := by
  have hswap : b.compare a = (a.compare b).swap := Std.OrientedCmp.eq_swap
  rw [precedes, precedes, hswap]
  rcases a.compare b <;> rfl

/-- Of two different names only one precedes the other. -/
theorem eq_of_precedes (hab : a.precedes b = true) (hba : b.precedes a = true) : a = b := by
  have hswap : b.compare a = (a.compare b).swap := Std.OrientedCmp.eq_swap
  have heq : a.compare b = .eq := by
    rw [precedes, hswap] at hba
    rw [precedes] at hab
    rcases h : a.compare b
    · rw [h] at hba
      cases hba
    · rfl
    · rw [h] at hab
      cases hab
  rw [compare, Key.compare, Ordering.then_eq_eq, Ordering.then_eq_eq, Std.compare_eq_iff_eq,
    Std.compare_eq_iff_eq, Std.compare_eq_iff_eq] at heq
  obtain ⟨hnamespace, hmodule, hname⟩ := heq
  cases a
  cases b
  cases hnamespace
  cases hmodule
  cases hname
  rfl

end GlobalName

/-! ## Other numbers -/

namespace IdentityRegistry

variable {f : Renaming} {entries : List IdentityEntry}

/-- Renaming entries keeps the positions of keys. -/
theorem positionOfKey?_map (g g' : Digraph) (key : Key) :
    positionOfKey? ⟨entries.map (IdentityEntry.rename f), g⟩ key =
      positionOfKey? ⟨entries, g'⟩ key := by
  rw [positionOfKey?, positionOfKey?, List.findIdx?_map]
  rfl

/-- Numbers of statements play no role for the graph. -/
theorem graph_ofSorted_map (f : Renaming) (entries : List IdentityEntry) :
    (ofSorted (entries.map (IdentityEntry.rename f))).graph = (ofSorted entries).graph := by
  have hconnect : ∀ (g : Digraph) (position : Nat) (e : IdentityEntry),
      connectBases ⟨entries.map (IdentityEntry.rename f), ⟨entries.length, []⟩⟩ g position
          (e.rename f) =
        connectBases ⟨entries, ⟨entries.length, []⟩⟩ g position e := by
    intro g position e
    rw [connectBases, connectBases, IdentityEntry.rename, List.filterMap_map]
    refine congrArg (List.foldl _ g) (List.filterMap_congr fun use _ => ?_)
    exact positionOfKey?_map _ _ use.target
  rw [ofSorted, ofSorted, List.length_map, List.zipIdx_map, List.foldl_map]
  exact congrArg (fun step => List.foldl step _ entries.zipIdx)
    (funext fun g => funext fun e => hconnect g e.2 e.1)

/-- Renaming entries keeps the identities at positions. -/
theorem identitiesAt_map (g g' : Digraph) (positions : List Nat) :
    identitiesAt ⟨entries.map (IdentityEntry.rename f), g⟩ positions =
      identitiesAt ⟨entries, g'⟩ positions := by
  refine List.filterMap_congr fun i _ => ?_
  rw [List.getElem?_map, Option.map_map]
  rfl

/-- The cycles are the same. -/
theorem cycles_ofSorted_map (f : Renaming) (entries : List IdentityEntry) :
    (ofSorted (entries.map (IdentityEntry.rename f))).cycles = (ofSorted entries).cycles := by
  rw [cycles, cycles, graph_ofSorted_map]
  exact List.map_congr_left fun component _ => identitiesAt_map _ _ _

/-- The findings are the same apart from the numbers of statements. -/
theorem findings_ofSorted_map (f : Renaming) (entries : List IdentityEntry) :
    (ofSorted (entries.map (IdentityEntry.rename f))).findings =
      (ofSorted entries).findings.map (Finding.rename f) := by
  have hmissing : ∀ e : IdentityEntry,
      ((e.rename f).bases.filter fun use =>
          (positionOfKey? (ofSorted (entries.map (IdentityEntry.rename f))) use.target).isNone) =
        (e.bases.filter fun use =>
          (positionOfKey? (ofSorted entries) use.target).isNone).map (BaseUse.rename f) := by
    intro e
    rw [IdentityEntry.rename, List.filter_map]
    refine congrArg (List.map _) (List.filter_congr fun use _ => ?_)
    exact congrArg Option.isNone (positionOfKey?_map _ _ use.target)
  have hcycle : ∀ cycle, cycleFinding? (ofSorted (entries.map (IdentityEntry.rename f))) cycle =
      (cycleFinding? (ofSorted entries) cycle).map (Finding.rename f) := by
    intro cycle
    rw [cycleFinding?, cycleFinding?]
    rcases cycle.head? with _ | first
    · rfl
    change Option.bind ((entries.map (IdentityEntry.rename f)).find? _) _ =
      Option.map _ (Option.bind (entries.find? _) _)
    rw [List.find?_map]
    rcases hfind : entries.find? (fun e => e.identity = first) with _ | e
    · have hnone : entries.find? ((fun e => decide (e.identity = first)) ∘
          IdentityEntry.rename f) = none := hfind
      rw [hnone, hfind]
      rfl
    · have hsome : entries.find? ((fun e => decide (e.identity = first)) ∘
          IdentityEntry.rename f) = some e := hfind
      rw [hsome, hfind]
      rfl
  have hflat : (entries.map (IdentityEntry.rename f)).flatMap (fun e =>
        e.bases.filter fun use =>
          (positionOfKey? (ofSorted (entries.map (IdentityEntry.rename f))) use.target).isNone) =
      (entries.flatMap fun e => e.bases.filter fun use =>
        (positionOfKey? (ofSorted entries) use.target).isNone).map (BaseUse.rename f) := by
    rw [List.flatMap_map, List.map_flatMap]
    exact List.flatMap_congr fun e _ => hmissing e
  rw [findings, findings, List.map_append, cycles_ofSorted_map, List.map_filterMap]
  refine congrArg₂ (· ++ ·) ?_ (List.filterMap_congr fun cycle _ => hcycle cycle)
  change List.map missingBase (List.flatMap _ (entries.map (IdentityEntry.rename f))) =
    List.map _ (List.map missingBase (List.flatMap _ entries))
  rw [hflat, List.map_map, List.map_map]
  rfl

end IdentityRegistry

/-! ## Freezing -/

namespace IdentityCollection

variable {f : Renaming} {c d : IdentityCollection}

/-- Identities that were collected in another order are frozen into the same entries.
Their keys are different, so there is one order of their names. -/
theorem freeze_of_perm (hperm : d.entries.entries.Perm
      (c.entries.entries.map (Prod.map id (IdentityEntry.rename f))))
    (hnodup : c.entries.keys.Nodup)
    (hkeys : ∀ e ∈ c.entries.entries, e.2.identity.key = e.1) :
    d.freeze = IdentityRegistry.ofSorted (c.freeze.entries.map (IdentityEntry.rename f)) := by
  have hvalues : d.entries.values.Perm (c.entries.values.map (IdentityEntry.rename f)) := by
    refine (hperm.map (·.2)).trans (List.Perm.of_eq ?_)
    rw [Roll.values, List.map_map, List.map_map]
    rfl
  -- entries with the same name have the same key, and so are the same
  have hunique : ∀ e ∈ c.entries.values, ∀ e' ∈ c.entries.values,
      e.identity = e'.identity → e = e' := by
    intro e he e' he' heq
    obtain ⟨i, hi, rfl⟩ := List.mem_map.mp he
    obtain ⟨j, hj, rfl⟩ := List.mem_map.mp he'
    have hkey : i.1 = j.1 := by rw [← hkeys i hi, ← hkeys j hj, heq]
    exact congrArg Prod.snd (List.inj_on_of_nodup_map hnodup hi hj hkey)
  have hsorted : ∀ entries : List IdentityEntry,
      (entries.mergeSort fun a b => a.identity.precedes b.identity).Pairwise
        fun a b => a.identity.precedes b.identity = true :=
    List.pairwise_mergeSort (fun _ _ _ => GlobalName.precedes_trans)
      fun a b => GlobalName.precedes_total a.identity b.identity
  have hentries : d.entries.values.mergeSort (fun a b => a.identity.precedes b.identity) =
      c.freeze.entries.map (IdentityEntry.rename f) := by
    have hmap : c.freeze.entries.map (IdentityEntry.rename f) =
        (c.entries.values.map (IdentityEntry.rename f)).mergeSort
          fun a b => a.identity.precedes b.identity :=
      List.map_mergeSort fun _ _ _ _ => rfl
    rw [hmap]
    refine List.Perm.eq_of_pairwise ?_ (hsorted _) (hsorted _) ?_
    · intro e e' he he' hle hle'
      rw [(List.mergeSort_perm _ _).mem_iff, hvalues.mem_iff] at he
      rw [(List.mergeSort_perm _ _).mem_iff] at he'
      obtain ⟨i, hi, rfl⟩ := List.mem_map.mp he
      obtain ⟨j, hj, rfl⟩ := List.mem_map.mp he'
      exact congrArg _ (hunique i hi j hj (GlobalName.eq_of_precedes hle hle'))
    · exact (List.mergeSort_perm _ _).trans (hvalues.trans (List.mergeSort_perm _ _).symm)
  rw [freeze, hentries]

end IdentityCollection
end StatementForest
