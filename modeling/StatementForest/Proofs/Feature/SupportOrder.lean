import StatementForest.Proofs.Schema.DefinitionCollection

/-!
# Support does not depend on an order

Features are dropped in rounds, each against those that were left by the round before.
Which of them a round drops is decided by conditions that ask for membership only, so the
order in which features became known, or in which a request names them, plays no role.

Main results:

- Theorem `FeatureRegistry.perm_settle`: the same features are left, in some order.
- Theorem `FeatureRegistry.support_of_perm`: the same features are supported, and the same
  findings are made.
-/

namespace StatementForest
namespace FeatureRegistry

variable {entries entries' : Roll Key FeatureEntry} {supported supported' : List Key}

/-- The conditions of a feature as they are found in both rolls. -/
theorem stands_congr
    (hfind : ∀ k, (entries'.find? k).map (·.conditions) = (entries.find? k).map (·.conditions))
    (hperm : supported'.Perm supported) (k : Key) :
    stands entries' supported' k = stands entries supported k := by
  have hholds : ScopedCondition.holds supported' = ScopedCondition.holds supported :=
    funext (ScopedCondition.holds_congr fun _ => hperm.mem_iff)
  have hk := hfind k
  rw [stands, stands]
  rcases h : entries.find? k with _ | e
  · rw [h, Option.map_none, Option.map_eq_none_iff] at hk
    rw [hk]
  · rw [h, Option.map_some, Option.map_eq_some_iff] at hk
    obtain ⟨e', he', hconditions⟩ := hk
    rw [he']
    dsimp only
    rw [hconditions, hholds]

theorem perm_standing
    (hfind : ∀ k, (entries'.find? k).map (·.conditions) = (entries.find? k).map (·.conditions))
    (hperm : supported'.Perm supported) :
    (standing entries' supported').Perm (standing entries supported) := by
  have hstands : stands entries' supported' = stands entries supported :=
    funext (stands_congr hfind hperm)
  rw [standing, standing, hstands]
  exact hperm.filter _

/-- The same features are left, in some order, by induction on their number. -/
theorem perm_settle
    (hfind : ∀ k, (entries'.find? k).map (·.conditions) = (entries.find? k).map (·.conditions))
    (hperm : supported'.Perm supported) :
    (settle entries' supported').Perm (settle entries supported) := by
  induction h : supported.length using Nat.strongRecOn generalizing supported supported' with
  | _ n ih =>
    subst h
    have hstanding := perm_standing hfind hperm
    rw [settle.eq_def entries' supported', settle.eq_def entries supported,
      hstanding.length_eq, hperm.length_eq]
    split
    · next hlt => exact ih _ hlt hstanding rfl
    · exact hperm

/-! ## Registries -/

variable {f : Renaming} {r q : FeatureRegistry}

/-- What a request asks for is known in both registries. -/
theorem perm_asked (hentries : q.entries.entries.Perm
      (r.entries.entries.map (Prod.map id (FeatureEntry.rename f))))
    (hnodup : r.entries.keys.Nodup) (request : Option (List String)) :
    (q.asked request).Perm (r.asked request) := by
  rcases request with _ | names
  · change q.entries.keys.Perm r.entries.keys
    refine (hentries.map (·.1)).trans (List.Perm.of_eq ?_)
    rw [List.map_map]
    rfl
  · have hrequested : q.requested? = r.requested? := funext fun name => by
      rw [requested?, requested?]
      simp only [Roll.contains, Roll.find?_of_perm hentries hnodup, Option.isSome_map]
      rfl
    change List.Perm (names.filterMap q.requested?).eraseDups _
    rw [hrequested]
    exact List.Perm.refl _

/-- Registries with the same features in another order support the same, and make the same
findings. -/
theorem support_of_perm (hentries : q.entries.entries.Perm
      (r.entries.entries.map (Prod.map id (FeatureEntry.rename f))))
    (hnodup : r.entries.keys.Nodup) (request : Option (List String)) :
    (q.support request).1.supported.Perm (r.support request).1.supported ∧
      (q.support request).2.Perm ((r.support request).2.map (Finding.rename f)) := by
  have hfind := Roll.find?_of_perm hentries hnodup
  have hasked := perm_asked hentries hnodup request
  have hsettle : (settle q.entries (q.asked request)).Perm
      (settle r.entries (r.asked request)) := by
    refine perm_settle (fun k => ?_) hasked
    rw [hfind, Option.map_map]
    rfl
  refine ⟨hsettle, ?_⟩
  simp only [support]
  split
  · have hkept : (fun k => !(settle q.entries (q.asked request)).contains k) =
        fun k => !(settle r.entries (r.asked request)).contains k := funext fun k => by
      rw [List.contains_eq_mem, List.contains_eq_mem, decide_eq_decide.mpr hsettle.mem_iff]
    have hdropped := hasked.filter fun k => !(settle r.entries (r.asked request)).contains k
    have hfindq : q.entries.find? = fun k => (r.entries.find? k).map (FeatureEntry.rename f) :=
      funext hfind
    rw [hkept, hfindq]
    refine ((List.mergeSort_perm _ _).map _).trans (((hdropped.filterMap _).map _).trans ?_)
    refine List.Perm.trans (List.Perm.of_eq ?_)
      ((((List.mergeSort_perm _ _).map unsupportedFinding).map (Finding.rename f)).symm)
    rw [List.map_filterMap, List.map_filterMap, List.map_filterMap]
    refine List.filterMap_congr fun k _ => ?_
    rcases r.entries.find? k with _ | e <;> rfl
  · simp only [List.filterMap_nil, List.mergeSort_nil, List.map_nil]
    exact List.Perm.nil

end FeatureRegistry
end StatementForest
