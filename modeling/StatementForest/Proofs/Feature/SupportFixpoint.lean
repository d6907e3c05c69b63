import Mathlib.Logic.Relation
import StatementForest.Proofs.Feature.SupportOrder

/-!
# Which features are left

Features are dropped in rounds.  A round looks at all features that are left and drops those
whose conditions do not hold against them.  The rounds end with a set whose conditions hold
against the set itself.  When no condition is written with `not`, a condition that fails now
fails against every smaller set as well, so no such set is ever lost.

With `not` this is so no longer: a feature may be dropped because of another one that is
itself dropped later, and its condition holds in the end.

Main results:

- Theorem `FeatureRegistry.Consistent.subset_settle`: without `not`, every consistent set of
  features is left.
- Theorem `FeatureRegistry.Round.perm_settle`: a round leads to the same end, whatever the
  order in which it looks at the features.
- Theorem `FeatureRegistry.support_settles`: what is supported, and what is reported.
- Theorem `FeatureRegistry.exists_failing_of_reported`: why a feature is reported.

Current gaps:

- With `not` a set of features is known to be consistent, but not to be the largest one.  There
  may be several consistent sets, of which none is the largest.
-/

namespace StatementForest

/-! ## Conditions without `not` -/

namespace Condition.Expression

mutual

/-- Whether a condition is written without `not`. -/
def isPositive : Expression → Bool
  | .feature _ => true
  | .not _ => false
  | .all es | .any es => arePositive es

/-- Whether all conditions are written without `not`. -/
def arePositive : List Expression → Bool
  | [] => true
  | e :: es => isPositive e && arePositive es

end

variable {p q : String → Bool}

mutual

/-- A condition without `not` goes on to hold when more features are supported. -/
theorem holds_mono (hpq : ∀ name, p name = true → q name = true) :
    ∀ e : Expression, e.isPositive = true → e.holds p = true → e.holds q = true
  | .feature name, _, h => hpq name h
  | .not _, hpos, _ => absurd hpos Bool.false_ne_true
  | .all es, hpos, h => holdsAll_mono hpq es hpos h
  | .any es, hpos, h => holdsAny_mono hpq es hpos h

/-- With more features all of some conditions without `not` hold still. -/
theorem holdsAll_mono (hpq : ∀ name, p name = true → q name = true) :
    ∀ es : List Expression, arePositive es = true → holdsAll p es = true → holdsAll q es = true
  | [], _, _ => rfl
  | e :: es, hpos, h => by
    rw [arePositive, Bool.and_eq_true] at hpos
    rw [holdsAll, Bool.and_eq_true] at h ⊢
    exact ⟨holds_mono hpq e hpos.1 h.1, holdsAll_mono hpq es hpos.2 h.2⟩

/-- With more features one of some conditions without `not` holds still. -/
theorem holdsAny_mono (hpq : ∀ name, p name = true → q name = true) :
    ∀ es : List Expression, arePositive es = true → holdsAny p es = true → holdsAny q es = true
  | [], _, h => absurd h Bool.false_ne_true
  | e :: es, hpos, h => by
    rw [arePositive, Bool.and_eq_true] at hpos
    rw [holdsAny, Bool.or_eq_true] at h ⊢
    exact h.imp (holds_mono hpq e hpos.1) (holdsAny_mono hpq es hpos.2)

end

end Condition.Expression

/-- A condition without `not` goes on to hold in its scope when more features are supported. -/
theorem ScopedCondition.holds_mono {supported supported' : List Key} {c : ScopedCondition}
    (hsub : supported ⊆ supported') (hpos : c.expression.isPositive = true)
    (h : c.holds supported = true) : c.holds supported' = true := by
  refine Condition.Expression.holds_mono (fun name hname => ?_) c.expression hpos h
  rw [Option.any_eq_true] at hname ⊢
  obtain ⟨k, hk, hmem⟩ := hname
  exact ⟨k, hk, List.contains_iff_mem.mpr (hsub (List.contains_iff_mem.mp hmem))⟩

namespace FeatureRegistry

variable {entries : Roll Key FeatureEntry} {supported set : List Key} {k : Key}

/-! ## Consistent sets -/

/-- The conditions of a feature; none for a feature that is not known. -/
def conditionsAt (entries : Roll Key FeatureEntry) (k : Key) : List ScopedCondition :=
  match entries.find? k with
  | some e => e.conditions
  | none => []

/-- The conditions of all features of a set hold when exactly this set is supported. -/
def Consistent (entries : Roll Key FeatureEntry) (set : List Key) : Prop :=
  ∀ k ∈ set, ∀ c ∈ conditionsAt entries k, c.holds set = true

/-- The conditions of a known feature are those of its entry. -/
theorem conditionsAt_of_find? {e : FeatureEntry} (h : entries.find? k = some e) :
    conditionsAt entries k = e.conditions := by
  rw [conditionsAt, h]

/-- A feature stands when all of its conditions hold. -/
theorem stands_iff :
    stands entries supported k = true ↔ ∀ c ∈ conditionsAt entries k, c.holds supported = true := by
  rw [stands, conditionsAt]
  rcases entries.find? k with _ | e
  · simp
  · exact List.all_eq_true

/-- A feature falls when one of its conditions does not hold. -/
theorem not_stands_iff :
    stands entries supported k = false ↔
      ∃ c ∈ conditionsAt entries k, c.holds supported = false := by
  rw [← Bool.not_eq_true, stands_iff]
  simp

/-- Of the supported features those that stand are left. -/
theorem mem_standing :
    k ∈ standing entries supported ↔ k ∈ supported ∧ stands entries supported k = true :=
  List.mem_filter

/-- A round loses nothing of a consistent set, as all conditions go on to hold against more. -/
theorem Consistent.subset_standing (h : Consistent entries set) (hsub : set ⊆ supported)
    (hpos : ∀ k ∈ supported, ∀ c ∈ conditionsAt entries k, c.expression.isPositive = true) :
    set ⊆ standing entries supported := by
  intro k hk
  refine mem_standing.mpr ⟨hsub hk, stands_iff.mpr fun c hc => ?_⟩
  exact ScopedCondition.holds_mono hsub (hpos k (hsub hk) c hc) (h k hk c hc)

/-- Without `not`, every consistent set of features is left. -/
theorem Consistent.subset_settle (h : Consistent entries set) (hsub : set ⊆ supported)
    (hpos : ∀ k ∈ supported, ∀ c ∈ conditionsAt entries k, c.expression.isPositive = true) :
    set ⊆ settle entries supported := by
  fun_induction settle entries supported with
  | case1 supported _ ih =>
    exact ih (h.subset_standing hsub hpos) fun k hk => hpos k (mem_standing.mp hk).1
  | case2 supported _ => exact hsub

/-- The features that are left in the end agree with their conditions. -/
theorem settle_consistent (entries : Roll Key FeatureEntry) (supported : List Key) :
    Consistent entries (settle entries supported) := fun k hk =>
  stands_iff.mp (holds_of_mem_settle entries supported k hk)

/-- A feature that is not left was dropped by a round against a set that holds all that is
left, and more. -/
theorem exists_not_stands (hk : k ∈ supported) (hnot : k ∉ settle entries supported) :
    ∃ seen : List Key, settle entries supported ⊆ seen ∧ seen ⊆ supported ∧ k ∈ seen ∧
      stands entries seen k = false := by
  fun_induction settle entries supported with
  | case1 supported _ ih =>
    have hleft : settle entries (standing entries supported) ⊆ supported := fun k hk =>
      (mem_standing.mp ((settle_sublist entries _).subset hk)).1
    by_cases hstands : stands entries supported k = true
    · obtain ⟨seen, hsettle, hseen, hmem, hfails⟩ := ih (mem_standing.mpr ⟨hk, hstands⟩) hnot
      exact ⟨seen, hsettle, fun k hk => (mem_standing.mp (hseen hk)).1, hmem, hfails⟩
    · exact ⟨supported, hleft, fun _ hk => hk, hk, Bool.not_eq_true _ ▸ hstands⟩
  | case2 supported _ => exact absurd hk hnot

/-! ## Rounds in any order -/

/-- The features that are left after some rounds, and those that were dropped so far. -/
structure Selection where
  left : List Key
  dropped : List Key := []

/-- One round.  It looks at the features that are left in some order, and drops those whose
conditions do not hold against all of them; there is at least one. -/
def Round (entries : Roll Key FeatureEntry) (s t : Selection) : Prop :=
  ∃ order : List Key, order.Perm s.left ∧ (∃ k ∈ order, stands entries s.left k = false) ∧
    t = { left := order.filter (stands entries s.left)
          dropped := s.dropped ++ order.filter fun k => !stands entries s.left k }

/-- No feature that is left is dropped by another round. -/
def Finished (entries : Roll Key FeatureEntry) (s : Selection) : Prop :=
  ∀ k ∈ s.left, stands entries s.left k = true

variable {s t : Selection}

namespace Round

/-- A round that drops something leaves fewer features. -/
theorem length_lt (h : Round entries s t) : t.left.length < s.left.length := by
  obtain ⟨order, hperm, ⟨k, hk, hfails⟩, rfl⟩ := h
  rw [← hperm.length_eq]
  refine List.length_filter_lt_length_iff_exists.mpr ⟨k, hk, ?_⟩
  rw [hfails]
  exact Bool.false_ne_true

/-- A round in any order leaves the features that stand. -/
theorem perm_standing (h : Round entries s t) : t.left.Perm (standing entries s.left) := by
  obtain ⟨order, hperm, -, rfl⟩ := h
  exact hperm.filter _

/-- A feature is left or dropped, and none is both lost and left. -/
theorem perm_append (h : Round entries s t) :
    (t.left ++ t.dropped).Perm (s.left ++ s.dropped) := by
  obtain ⟨order, hperm, -, rfl⟩ := h
  have hsplit := (List.filter_append_perm (stands entries s.left) order).trans hperm
  refine List.Perm.trans ?_ (hsplit.append_right s.dropped)
  rw [List.append_assoc]
  exact List.perm_append_comm.append_left _

end Round

/-- A round goes before all others without a change of the end. -/
theorem settle_standing (entries : Roll Key FeatureEntry) (supported : List Key) :
    settle entries (standing entries supported) = settle entries supported := by
  rw [settle.eq_def entries supported]
  split
  · rfl
  · next hge =>
    have hall : standing entries supported = supported :=
      List.filter_sublist.eq_of_length
        (Nat.le_antisymm (List.length_filter_le _ _) (Nat.le_of_not_lt hge))
    rw [hall, settle, if_neg hge]

/-- A round leads to the same end, whatever the order in which it looks at the features. -/
theorem Round.perm_settle (h : Round entries s t) :
    (settle entries t.left).Perm (settle entries s.left) := by
  rw [← settle_standing entries s.left]
  exact FeatureRegistry.perm_settle (fun _ => rfl) h.perm_standing

/-- Nothing more is dropped when the rounds have ended. -/
theorem Finished.settle_eq (h : Finished entries s) : settle entries s.left = s.left := by
  have hall : standing entries s.left = s.left := List.filter_eq_self.mpr h
  rw [settle, hall, if_neg (Nat.lt_irrefl _)]

/-- There is no endless sequence of rounds, as each makes the set smaller. -/
theorem acc_round (entries : Roll Key FeatureEntry) (s : Selection) :
    Acc (fun t s => Round entries s t) s :=
  Subrelation.accessible (fun h => h.length_lt)
    (InvImage.accessible (fun s : Selection => s.left.length) (Nat.lt_wfRel.wf.apply _))

/-- Rounds go on until they are finished. -/
theorem exists_finished (entries : Roll Key FeatureEntry) (s : Selection) :
    ∃ t, Relation.ReflTransGen (Round entries) s t ∧ Finished entries t := by
  induction acc_round entries s with
  | intro s _ ih =>
    by_cases hfails : ∃ k ∈ s.left, stands entries s.left k = false
    · have hround : Round entries s _ := ⟨s.left, List.Perm.refl _, hfails, rfl⟩
      obtain ⟨t, hrun, ht⟩ := ih _ hround
      exact ⟨t, hrun.head hround, ht⟩
    · refine ⟨s, .refl, fun k hk => ?_⟩
      rw [← Bool.not_eq_false]
      exact fun hk' => hfails ⟨k, hk, hk'⟩

/-- Any number of rounds leads to the same end and loses no feature. -/
theorem perm_of_rounds (h : Relation.ReflTransGen (Round entries) s t) :
    (settle entries t.left).Perm (settle entries s.left) ∧
      (t.left ++ t.dropped).Perm (s.left ++ s.dropped) := by
  induction h with
  | refl => exact ⟨List.Perm.refl _, List.Perm.refl _⟩
  | tail _ hround ih =>
    exact ⟨hround.perm_settle.trans ih.1, hround.perm_append.trans ih.2⟩

/-- When the rounds are finished, what is left has been settled, and all else was dropped. -/
theorem perm_of_finished {asked : List Key} (hnodup : asked.Nodup)
    (h : Relation.ReflTransGen (Round entries) ⟨asked, []⟩ t) (ht : Finished entries t) :
    t.left.Perm (settle entries asked) ∧
      t.dropped.Perm (asked.filter fun k => !(settle entries asked).contains k) := by
  obtain ⟨hsettle, hall⟩ := perm_of_rounds h
  rw [ht.settle_eq] at hsettle
  rw [List.append_nil] at hall
  refine ⟨hsettle, ?_⟩
  obtain ⟨-, hdropped, hapart⟩ := List.nodup_append.mp (hall.nodup_iff.mpr hnodup)
  refine (List.perm_ext_iff_of_nodup hdropped (hnodup.filter _)).mpr fun k => ?_
  rw [List.mem_filter, ← hall.mem_iff, Bool.not_eq_true', List.contains_eq_mem,
    decide_eq_false_iff_not, ← hsettle.mem_iff, List.mem_append]
  constructor
  · exact fun hk => ⟨.inr hk, fun hk' => hapart k hk' k hk rfl⟩
  · exact fun ⟨hk, hnot⟩ => hk.resolve_left hnot

/-! ## Requests -/

/-- A request asks for the known features that it names.  Without a request all known
features are asked for. -/
def Asks (r : FeatureRegistry) (request : Option (List String)) (k : Key) : Prop :=
  r.entries.contains k = true ∧ ∀ names, request = some names →
    ∃ name ∈ names, Text.splitAtFirst ':' name = some (k.owner, k.name)

variable {r : FeatureRegistry} {request : Option (List String)} {names : List String}

/-- A name asks for the known feature whose module and name are its parts. -/
theorem requested?_eq_some {name : String} : r.requested? name = some k ↔
    r.entries.contains k = true ∧ Text.splitAtFirst ':' name = some (k.owner, k.name) := by
  rw [requested?]
  rcases Text.splitAtFirst ':' name with _ | ⟨module, localName⟩
  · simp
  · rw [Option.bind_some]
    dsimp only
    split
    · next hknown =>
      constructor
      · rintro ⟨⟩
        exact ⟨hknown, rfl⟩
      · rintro ⟨-, h⟩
        cases h
        rfl
    · next hunknown =>
      constructor
      · rintro ⟨⟩
      · rintro ⟨hknown, h⟩
        cases h
        exact absurd hknown hunknown

/-- What is asked for is what the request names. -/
theorem mem_asked : k ∈ r.asked request ↔ r.Asks request k := by
  rw [asked.eq_def, Asks]
  rcases request with _ | names
  · rw [← Roll.contains_iff]
    exact ⟨fun h => ⟨h, nofun⟩, And.left⟩
  · simp only [List.mem_eraseDups, List.mem_filterMap, requested?_eq_some, Option.some.injEq,
      forall_eq']
    constructor
    · rintro ⟨name, hname, hknown, hsplit⟩
      exact ⟨hknown, name, hname, hsplit⟩
    · rintro ⟨hknown, name, hname, hsplit⟩
      exact ⟨name, hname, hknown, hsplit⟩

/-- A list without repetitions is left when repetitions are erased. -/
theorem nodup_eraseDups (keys : List Key) : keys.eraseDups.Nodup := by
  induction h : keys.length using Nat.strongRecOn generalizing keys with
  | _ n ih =>
    subst h
    rcases keys with _ | ⟨k, rest⟩
    · exact List.nodup_nil
    · rw [List.eraseDups_cons, List.nodup_cons, List.mem_eraseDups]
      refine ⟨by simp, ih _ ?_ _ rfl⟩
      exact Nat.lt_succ_of_le (List.length_filter_le _ _)

/-- No feature is asked for twice. -/
theorem nodup_asked (r : FeatureRegistry) (names : List String) :
    (r.asked (some names)).Nodup := nodup_eraseDups _

/-! ## Reports -/

/-- The report on dropped features, in the order of their statements. -/
def report (entries : Roll Key FeatureEntry) (dropped : List Key) : List Finding :=
  ((dropped.filterMap entries.find?).mergeSort fun a b => a.node.index ≤ b.node.index).map
    unsupportedFinding

/-- Different features are defined by different statements. -/
def Separate (entries : Roll Key FeatureEntry) : Prop :=
  ∀ k k' e e', entries.find? k = some e → entries.find? k' = some e' → e.node = e'.node → k = k'

/-- The findings report what is asked for and not supported. -/
theorem support_eq (r : FeatureRegistry) (names : List String) :
    (r.support (some names)).2 = report r.entries
      ((r.asked (some names)).filter fun k =>
        !(settle r.entries (r.asked (some names))).contains k) :=
  rfl

/-- The report has one finding for each dropped feature. -/
theorem report_perm_map (entries : Roll Key FeatureEntry) (dropped : List Key) :
    (report entries dropped).Perm ((dropped.filterMap entries.find?).map unsupportedFinding) :=
  (List.mergeSort_perm _ _).map _

/-- The order in which features were dropped does not matter to the report, but for its order. -/
theorem report_perm {dropped dropped' : List Key} (h : dropped.Perm dropped') :
    (report entries dropped).Perm (report entries dropped') :=
  (report_perm_map entries dropped).trans
    (((h.filterMap _).map _).trans (report_perm_map entries dropped').symm)

/-- The order of the statements decides on the order of the report. -/
theorem report_eq_of_perm {dropped dropped' : List Key} (hseparate : Separate entries)
    (h : dropped.Perm dropped') : report entries dropped = report entries dropped' := by
  have hsorted : ∀ found : List FeatureEntry,
      (found.mergeSort fun a b => a.node.index ≤ b.node.index).Pairwise
        fun a b => decide (a.node.index ≤ b.node.index) = true :=
    List.pairwise_mergeSort (fun a b c hab hbc => decide_eq_true
      ((of_decide_eq_true hab).trans (of_decide_eq_true hbc)))
      fun a b => by
        rw [Bool.or_eq_true, decide_eq_true_iff, decide_eq_true_iff]
        exact Nat.le_total _ _
  refine congrArg (List.map unsupportedFinding) (List.Perm.eq_of_pairwise ?_ (hsorted _)
    (hsorted _) ((List.mergeSort_perm _ _).trans
      ((h.filterMap _).trans (List.mergeSort_perm _ _).symm)))
  intro a b ha hb hab hba
  rw [(List.mergeSort_perm _ _).mem_iff, List.mem_filterMap] at ha hb
  obtain ⟨k, -, hk⟩ := ha
  obtain ⟨k', -, hk'⟩ := hb
  have hnode : a.node = b.node := congrArg NodeId.mk
    (Nat.le_antisymm (of_decide_eq_true hab) (of_decide_eq_true hba))
  have hkey := hseparate k k' a b hk hk' hnode
  rw [hkey, hk'] at hk
  exact (Option.some.inj hk).symm

/-- A feature of a module with conditions on features of that module. -/
def sampleEntry (index : Nat) (name : String) (conditions : List Condition.Expression) :
    FeatureEntry where
  feature := ⟨"urn:m", "m", name⟩
  node := ⟨index⟩
  origin := ⟨none, "feature", none⟩
  conditions := conditions.map (⟨·, ⟨"m", Dictionary.empty⟩⟩)

/-! ## Support -/

/-- What it means that a set of features was rightly supported on a request, and that the
right findings were made. -/
structure Settlement (r : FeatureRegistry) (request : Option (List String))
    (supported : List Key) (findings : List Finding) : Prop where
  asked : ∀ k ∈ supported, r.Asks request k
  consistent : Consistent r.entries supported
  /-- Without `not` there is no larger set of this kind. -/
  largest : (∀ k, r.Asks request k → ∀ c ∈ conditionsAt r.entries k,
      c.expression.isPositive = true) →
    ∀ set : List Key, (∀ k ∈ set, r.Asks request k) → Consistent r.entries set → set ⊆ supported
  silent : request = none → findings = []
  /-- A request is told once about each feature that it asks for in vain. -/
  reported : request ≠ none → ∃ dropped : List (Key × FeatureEntry), (dropped.map (·.1)).Nodup ∧
    (∀ k e, (k, e) ∈ dropped ↔
      r.Asks request k ∧ k ∉ supported ∧ r.entries.find? k = some e) ∧
    findings.Perm (dropped.map fun d => unsupportedFinding d.2)
  /-- Rounds come to an end, whatever the order in which each looks at the features. -/
  ends : Acc (fun t s => Round r.entries s t) { left := r.asked request } ∧
    ∃ t, Relation.ReflTransGen (Round r.entries) { left := r.asked request } t ∧
      Finished r.entries t
  /-- They end in the same way. -/
  unordered : ∀ t, Relation.ReflTransGen (Round r.entries) { left := r.asked request } t →
    Finished r.entries t → t.left.Perm supported ∧ (request ≠ none →
      (report r.entries t.dropped).Perm findings ∧
        (Separate r.entries → report r.entries t.dropped = findings))

/-- A request is told once about each feature that it asks for in vain. -/
theorem exists_dropped (r : FeatureRegistry) (names : List String) :
    ∃ dropped : List (Key × FeatureEntry), (dropped.map (·.1)).Nodup ∧
      (∀ k e, (k, e) ∈ dropped ↔ r.Asks (some names) k ∧
        k ∉ (r.support (some names)).1.supported ∧ r.entries.find? k = some e) ∧
      (r.support (some names)).2.Perm (dropped.map fun d => unsupportedFinding d.2) := by
  let keys := (r.asked (some names)).filter fun k =>
    !(settle r.entries (r.asked (some names))).contains k
  have hkeys : ∀ k, k ∈ keys ↔ r.Asks (some names) k ∧
      k ∉ (r.support (some names)).1.supported := by
    intro k
    rw [List.mem_filter, mem_asked, Bool.not_eq_true', List.contains_eq_mem,
      decide_eq_false_iff_not]
    rfl
  let withEntry (k : Key) : Option (Key × FeatureEntry) := (r.entries.find? k).map (k, ·)
  have hfst : ((keys.filterMap withEntry).map (·.1)) = keys := by
    rw [List.map_filterMap]
    refine (List.filterMap_congr fun k hk => ?_).trans List.filterMap_some
    obtain ⟨e, he⟩ := Option.isSome_iff_exists.mp ((hkeys k).mp hk).1.1
    simp only [withEntry, he, Option.map_some]
  refine ⟨keys.filterMap withEntry, ?_, fun k e => ?_, ?_⟩
  · rw [hfst]
    exact (nodup_asked r names).filter _
  · rw [List.mem_filterMap]
    constructor
    · rintro ⟨k', hk', hentry⟩
      obtain ⟨e', he', heq⟩ := Option.map_eq_some_iff.mp hentry
      cases heq
      exact ⟨((hkeys k).mp hk').1, ((hkeys k).mp hk').2, he'⟩
    · rintro ⟨hasks, hnot, he⟩
      exact ⟨k, (hkeys k).mpr ⟨hasks, hnot⟩, Option.map_eq_some_iff.mpr ⟨e, he, rfl⟩⟩
  · rw [support_eq]
    refine (report_perm_map _ _).trans (List.Perm.of_eq ?_)
    rw [List.map_filterMap, List.map_filterMap]
    refine List.filterMap_congr fun k _ => ?_
    rcases h : r.entries.find? k with _ | e <;> simp [withEntry, h]

/-- A feature that is asked for and not supported is reported. -/
theorem reported_of_not_supported {e : FeatureEntry} (hasks : r.Asks (some names) k)
    (hnot : k ∉ (r.support (some names)).1.supported) (he : r.entries.find? k = some e) :
    unsupportedFinding e ∈ (r.support (some names)).2 := by
  obtain ⟨dropped, -, hdropped, hperm⟩ := exists_dropped r names
  exact hperm.mem_iff.mpr (List.mem_map.mpr ⟨(k, e), (hdropped k e).mpr ⟨hasks, hnot, he⟩, rfl⟩)

/-- The supported features are those that were asked for and are left by the rounds.  They are
consistent, and without `not` they are all that can be. -/
theorem support_settles (r : FeatureRegistry) (request : Option (List String)) :
    r.Settlement request (r.support request).1.supported (r.support request).2 where
  asked k hk := mem_asked.mp ((settle_sublist _ _).subset hk)
  consistent := settle_consistent _ _
  largest hpos set hset hconsistent := hconsistent.subset_settle
    (fun k hk => mem_asked.mpr (hset k hk)) fun k hk => hpos k (mem_asked.mp hk)
  silent h := by
    subst h
    simp [support]
  reported h := by
    obtain ⟨names, rfl⟩ := Option.ne_none_iff_exists'.mp h
    exact exists_dropped r names
  ends := ⟨acc_round _ _, exists_finished _ _⟩
  unordered t hrun hfinished := by
    refine ⟨?_, fun h => ?_⟩
    · have hsettle := (perm_of_rounds hrun).1
      rwa [hfinished.settle_eq] at hsettle
    · obtain ⟨names, rfl⟩ := Option.ne_none_iff_exists'.mp h
      obtain ⟨-, hdropped⟩ := perm_of_finished (nodup_asked r names) hrun hfinished
      rw [support_eq]
      exact ⟨report_perm hdropped, fun hseparate => report_eq_of_perm hseparate hdropped⟩

/-- Two features that depend on each other, and one that depends on an unknown one. -/
def mutualFeatures : FeatureRegistry :=
  [sampleEntry 0 "a" [.feature "b"], sampleEntry 1 "b" [.feature "a"],
    sampleEntry 2 "c" [.feature "d"]].foldl insert {}

/-- Features that depend on nothing but each other are supported. -/
theorem support_settles_mutualFeatures :
    (∀ k, mutualFeatures.Asks none k → ∀ c ∈ conditionsAt mutualFeatures.entries k,
      c.expression.isPositive = true) ∧
    [⟨"m", "a"⟩, ⟨"m", "b"⟩] ⊆ (mutualFeatures.support none).1.supported := by
  have hpositive : ∀ k ∈ mutualFeatures.asked none, ∀ c ∈ conditionsAt mutualFeatures.entries k,
      c.expression.isPositive = true := by decide +kernel
  have hasks : ∀ k ∈ ([⟨"m", "a"⟩, ⟨"m", "b"⟩] : List Key), k ∈ mutualFeatures.asked none := by
    decide +kernel
  have hpositive' := fun k hk => hpositive k (mem_asked.mpr hk)
  refine ⟨hpositive', (support_settles mutualFeatures none).largest hpositive' _
    (fun k hk => mem_asked.mp (hasks k hk)) ?_⟩
  unfold Consistent
  decide +kernel

/-! ## Why a feature is reported -/

/-- A feature is reported because one of its conditions failed when it was dropped.  At that
time all that is supported in the end was left, so a condition without `not` still fails. -/
theorem exists_failing_of_reported {g : Finding} (h : g ∈ (r.support (some names)).2) :
    ∃ k e, r.entries.find? k = some e ∧ g = unsupportedFinding e ∧
      ∃ seen : List Key, (r.support (some names)).1.supported ⊆ seen ∧ k ∈ seen ∧
        (∀ k' ∈ seen, r.Asks (some names) k') ∧ ∃ c ∈ e.conditions, c.holds seen = false ∧
          (c.expression.isPositive = true →
            c.holds (r.support (some names)).1.supported = false) := by
  obtain ⟨dropped, -, hdropped, hperm⟩ := exists_dropped r names
  obtain ⟨⟨k, e⟩, hmem, rfl⟩ := List.mem_map.mp (hperm.mem_iff.mp h)
  obtain ⟨hasks, hnot, he⟩ := (hdropped k e).mp hmem
  obtain ⟨seen, hleft, hseen, hk, hfails⟩ := exists_not_stands (mem_asked.mpr hasks) hnot
  obtain ⟨c, hc, hfalse⟩ := not_stands_iff.mp hfails
  rw [conditionsAt_of_find? he] at hc
  refine ⟨k, e, he, rfl, seen, hleft, hk, fun k' hk' => mem_asked.mp (hseen hk'), c, hc, hfalse,
    fun hpos => ?_⟩
  rw [← Bool.not_eq_true]
  intro hholds
  rw [ScopedCondition.holds_mono hleft hpos hholds] at hfalse
  cases hfalse

/-- A feature that excludes another one, which depends on an unknown one. -/
def rivalFeatures : FeatureRegistry :=
  [sampleEntry 0 "a" [.not (.feature "b")], sampleEntry 1 "b" [.feature "c"]].foldl insert {}

/-- The feature that excludes another one is reported. -/
theorem rivalFeatures_reported :
    unsupportedFinding (sampleEntry 0 "a" [.not (.feature "b")]) ∈
      (rivalFeatures.support (some ["m:a", "m:b"])).2 :=
  reported_of_not_supported (k := ⟨"m", "a"⟩) (mem_asked.mp (by decide +kernel))
    (by decide +kernel) rfl

/-- The condition of a reported feature failed while both were left. -/
theorem exists_failing_of_reported_rivalFeatures :
    unsupportedFinding (sampleEntry 0 "a" [.not (.feature "b")]) ∈
        (rivalFeatures.support (some ["m:a", "m:b"])).2 ∧
      ∃ seen : List Key, (rivalFeatures.support (some ["m:a", "m:b"])).1.supported ⊆ seen ∧
        ∃ k e, k ∈ seen ∧ rivalFeatures.entries.find? k = some e ∧
          ∃ c ∈ e.conditions, c.holds seen = false := by
  obtain ⟨k, e, he, -, seen, hleft, hk, -, c, hc, hfails, -⟩ :=
    exists_failing_of_reported rivalFeatures_reported
  exact ⟨rivalFeatures_reported, seen, hleft, k, e, hk, he, c, hc, hfails⟩

/-- All conditions of a reported feature may hold in the end. -/
theorem rivalFeatures_reported_although_satisfied :
    rivalFeatures.entries.find? ⟨"m", "a"⟩ = some (sampleEntry 0 "a" [.not (.feature "b")]) ∧
      unsupportedFinding (sampleEntry 0 "a" [.not (.feature "b")]) ∈
        (rivalFeatures.support (some ["m:a", "m:b"])).2 ∧
      ∀ c ∈ (sampleEntry 0 "a" [.not (.feature "b")]).conditions,
        c.holds (rivalFeatures.support (some ["m:a", "m:b"])).1.supported = true :=
  ⟨rfl, rivalFeatures_reported, by decide +kernel⟩

end FeatureRegistry
end StatementForest
