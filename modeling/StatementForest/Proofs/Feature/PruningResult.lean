import StatementForest.Proofs.Feature.PruningRenaming
import StatementForest.Proofs.Store.ReachableStores
import StatementForest.Proofs.Schema.BuildOutcome

/-!
# Which statements are left by pruning

A statement is gated out when, on the way from the top of its tree down to it, there is a
statement with a condition that fails, and no feature before that.  Pruning takes out exactly
these statements.  A statement that is left keeps the children that are left, in their order,
and the names of the others.  What is left has no reason to be taken out, so pruning once more
changes nothing.

Main results:

- Theorem `FeatureRegistry.removes_iff_gatedOut`: what pruning takes out.
- Theorem `FeatureRegistry.Pruned.trimmed`: what is left.
- Theorem `FeatureRegistry.Pruned.not_excludes_again`, `FeatureRegistry.Pruned.eq_self`: why
  nothing is taken out of that.
- Theorem `FeatureRegistry.prune_trims`: all this of pruning a tree, once and again.

Current gaps:

- One tree is pruned.  For all trees of a schema the effect is that of
  `FeatureRegistry.pruneTrees_spec`.
-/

namespace StatementForest

open Store

/-! ## Dictionaries -/

/-- The later of two values under one key counts. -/
theorem Dictionary.insert_insert {α : Type} (d : Dictionary α) (key : String) (v w : α) :
    (d.insert key v).insert key w = d.insert key w := by
  apply Dictionary.ext
  change insertEntry key w (insertEntry key v d.entries) = insertEntry key w d.entries
  induction d.entries with
  | nil => simp [insertEntry]
  | cons e rest ih =>
    obtain ⟨k, u⟩ := e
    simp only [insertEntry]
    split
    · simp [insertEntry]
    · split
      · simp [insertEntry]
      · next hlt hne => simp [insertEntry, hlt, hne, ih]

namespace FeatureRegistry

variable {r q : FeatureRegistry} {s t : Store} {top x y p c : NodeId} {starts : List NodeId}
  {findings : List Finding}

/-! ## The names of removed children -/

/-- The names that a statement keeps of removed children. -/
def keptNames (data : Dictionary CustomValue) : List CustomValue :=
  match data.find? removedData with
  | some (.list items) => items
  | _ => []

/-- Keep more names of removed children.  What was kept in their place and is no list of names
gives way to one. -/
def keepNames (data : Dictionary CustomValue) (names : List String) : Dictionary CustomValue :=
  if names = [] then data
  else data.insert removedData (.list (keptNames data ++ names.map .text))

/-- Keeping the name of a child is keeping a list of one name. -/
theorem noteRemoved_eq (data : Dictionary CustomValue) (name : String) :
    noteRemoved data name = keepNames data [name] := by
  rw [noteRemoved, keepNames, keptNames, if_neg (List.cons_ne_nil _ _)]
  rcases data.find? removedData with _ | _ | _ | _ | _ | _ <;> rfl

/-- The names that are kept are those that were written. -/
theorem keptNames_insert (data : Dictionary CustomValue) (items : List CustomValue) :
    keptNames (data.insert removedData (.list items)) = items := by
  rw [keptNames, Dictionary.find?_insert_self]

/-- Keeping a name and then others is keeping all of them. -/
theorem keepNames_cons (data : Dictionary CustomValue) (name : String) (names : List String) :
    keepNames (keepNames data [name]) names = keepNames data (name :: names) := by
  rcases names with _ | ⟨n, names⟩
  · rfl
  · simp [keepNames, keptNames_insert, Dictionary.insert_insert]

/-- Names that are noted one after another are kept in this order. -/
theorem foldl_noteRemoved (names : List String) (data : Dictionary CustomValue) :
    names.foldl noteRemoved data = keepNames data names := by
  induction names generalizing data with
  | nil => rfl
  | cons name names ih => rw [List.foldl_cons, ih, noteRemoved_eq, keepNames_cons]

/-! ## What pruning takes out -/

/-- A statement has a condition that can be read and does not hold. -/
def Denied (r : FeatureRegistry) (s : Store) (x : NodeId) : Prop :=
  ∃ c ∈ s.childrenOfKeyword x .ifFeature, ∃ n e, s.get? c = some n ∧
    Condition.parse? n.argument = some e ∧
      ScopedCondition.holds r.supported ⟨e, n.element.scope⟩ = false

/-- On the way from the top of a tree down to a statement there is one with a condition that
does not hold, and no feature down to that one. -/
def GatedOut (r : FeatureRegistry) (s : Store) (top x : NodeId) : Prop :=
  ∃ m, s.Below top m ∧ m ≠ top ∧ s.Below m x ∧ r.Denied s m ∧
    ∀ y, s.Below top y → y ≠ top → s.Below y m → isFeature s y = false

/-- A statement is not admitted when one of its conditions does not hold. -/
theorem admits_eq_false_iff : r.admits s x = false ↔ r.Denied s x := by
  rw [admits, List.all_eq_false, Denied]
  simp only [Store.conditionsOf, List.mem_filterMap, Option.bind_eq_some_iff, conditionOf?,
    Option.map_eq_some_iff, Bool.not_eq_true]
  constructor
  · rintro ⟨_, ⟨c, hc, n, hn, e, he, rfl⟩, hfalse⟩
    exact ⟨c, hc, n, e, hn, he, hfalse⟩
  · rintro ⟨c, hc, n, e, hn, he, hfalse⟩
    exact ⟨_, ⟨c, hc, n, hn, e, he, rfl⟩, hfalse⟩

/-- All that lies between the top and a statement that pruning comes to has been entered. -/
theorem Visits.enters_of_below (w : s.Wired) (h : r.Visits s [top] x) (htop : s.Below top y)
    (hne : y ≠ top) (hy : s.Below y x) : r.enters s y = true := by
  induction h with
  | start hx =>
    rw [List.mem_singleton.mp hx] at hy
    exact absurd (hy.antisymm (w.grounded _) htop) hne
  | child _ hc henters ih =>
    obtain rfl | hy := (below_iff_of_parentOf hc).mp hy
    · exact henters
    · exact ih hy

/-- A child of a statement is taken out on its own account, or with the statement. -/
theorem removes_child_iff (hc : s.parentOf c = some p) : r.Removes s starts c ↔
    (r.Visits s starts p ∧ r.excludes s c = true) ∨ r.Removes s starts p := by
  constructor
  · rintro ⟨p', d, hp', hd, hexcludes, hbelow⟩
    obtain rfl | hbelow := (below_iff_of_parentOf hc).mp hbelow
    · rw [hc] at hd
      cases hd
      exact .inl ⟨hp', hexcludes⟩
    · exact .inr ⟨p', d, hp', hd, hexcludes, hbelow⟩
  · rintro (⟨hp, hexcludes⟩ | ⟨p', d, hp', hd, hexcludes, hbelow⟩)
    · exact ⟨p, c, hp, hc, hexcludes, .self⟩
    · exact ⟨p', d, hp', hd, hexcludes, .under hc hbelow⟩

/-- Where no feature is on the way, pruning comes to a statement or takes it out. -/
theorem visits_or_removes (h : s.Below top x)
    (hfeature : ∀ y, s.Below top y → y ≠ top → s.Below y x → isFeature s y = false) :
    r.Visits s [top] x ∨ r.Removes s [top] x := by
  induction h with
  | self => exact .inl (.start List.mem_cons_self)
  | @under x p hp hbelow ih =>
    by_cases hx : x = top
    · exact .inl (.start (List.mem_singleton.mpr hx))
    obtain hvisits | hremoves := ih fun y htop hne hy => hfeature y htop hne (.under hp hy)
    · have hnot := hfeature x (.under hp hbelow) hx .self
      rcases hadmits : r.admits s x
      · refine .inr ((removes_child_iff hp).mpr (.inl ⟨hvisits, ?_⟩))
        rw [excludes_of_not_isFeature hnot, hadmits, Bool.not_false]
      · refine .inl (.child hvisits hp ?_)
        rw [enters_of_not_isFeature hnot, hadmits]
    · exact .inr ((removes_child_iff hp).mpr (.inr hremoves))

/-- Pruning from a top takes out what is gated out. -/
theorem removes_iff_gatedOut (w : s.Wired) : r.Removes s [top] x ↔ r.GatedOut s top x := by
  constructor
  · rintro ⟨p, c, hp, hc, hexcludes, hx⟩
    obtain ⟨d, hd, hbelow⟩ := hp.exists_below
    rw [List.mem_singleton.mp hd] at hbelow
    rw [excludes, Bool.and_eq_true, Bool.not_eq_true', Bool.not_eq_true'] at hexcludes
    refine ⟨c, .under hc hbelow, ?_, hx, admits_eq_false_iff.mp hexcludes.2, ?_⟩
    · rintro rfl
      exact (w.grounded _).not_below_parent hc hbelow
    · intro y htop hne hy
      obtain rfl | hy := (below_iff_of_parentOf hc).mp hy
      · exact hexcludes.1
      · have henters := hp.enters_of_below w htop hne hy
        rw [enters, Bool.and_eq_true, Bool.not_eq_true'] at henters
        exact henters.1
  · rintro ⟨m, htop, hne, hx, hdenied, hfeature⟩
    obtain ⟨p, hp, hbelow⟩ := htop.exists_parent hne.symm
    have hm : r.Removes s [top] m := by
      rw [removes_child_iff hp]
      refine (visits_or_removes hbelow fun y hy hyne hym => ?_).imp_left fun hvisits =>
        ⟨hvisits, ?_⟩
      · exact hfeature y hy hyne (.under hp hym)
      · rw [excludes_of_not_isFeature (hfeature m htop hne .self),
          admits_eq_false_iff.mpr hdenied, Bool.not_false]
    obtain ⟨p', c, hp', hc, hexcludes, hbelow'⟩ := hm
    exact ⟨p', c, hp', hc, hexcludes, hbelow'.trans hx⟩

/-! ## What is left -/

/-- The second store is the first one after a tree has been pruned. -/
structure Trimmed (r : FeatureRegistry) (root : RootId) (s t : Store) : Prop where
  size : t.slots.size = s.slots.size
  trees : t.trees = s.trees
  /-- Of the live statements exactly those are gone that are gated out in the tree. -/
  gone_iff : ∀ x, s.contains x = true →
    (t.contains x = false ↔ ∃ top, s.topOf root = some top ∧ r.GatedOut s top x)
  /-- With a statement goes all that is below it. -/
  gone_below : ∀ x, s.contains x = true → t.contains x = false →
    ∀ y, s.Below x y → t.contains y = false
  /-- No statement is new. -/
  contains_of_contains : ∀ x, t.contains x = true → s.contains x = true
  /-- A statement that is left keeps those of its children that are left, in their order, and
  the names of the others; in all else it is the same. -/
  left : ∀ x n, s.get? x = some n → t.contains x = true → t.get? x = some { n with
    children := n.children.filter t.contains
    data := keepNames n.data
      ((n.children.filter fun c => !t.contains c).filterMap (removedNameOf? s)) }

/-- Pruning some subtrees takes out what it removes and keeps all else. -/
theorem Pruned.contains_eq_false_iff (h : Pruned r starts s t findings)
    (hx : s.contains x = true) : t.contains x = false ↔ r.Removes s starts x := by
  constructor
  · intro hnot
    by_contra hremoves
    by_cases hvisits : r.Visits s starts x
    · rw [contains, h.visited x hvisits, Option.isSome_map, ← contains, hx] at hnot
      cases hnot
    · rw [contains, h.other x hvisits hremoves, ← contains, hx] at hnot
      cases hnot
  · intro hremoves
    rw [contains, h.removed x hremoves]
    rfl

/-- What is live after pruning was live before. -/
theorem Pruned.contains_of_contains (h : Pruned r starts s t findings)
    (hx : t.contains x = true) : s.contains x = true := by
  by_cases hremoves : r.Removes s starts x
  · rw [contains, h.removed x hremoves] at hx
    cases hx
  by_cases hvisits : r.Visits s starts x
  · rwa [contains, h.visited x hvisits, Option.isSome_map] at hx
  · rwa [contains, h.other x hvisits hremoves] at hx

/-- A statement that is left keeps what is left of its children. -/
theorem Pruned.get?_of_contains (h : Pruned r starts s t findings) (w : s.Wired) {n : Node}
    (hn : s.get? x = some n) (hx : t.contains x = true) : t.get? x = some { n with
      children := n.children.filter t.contains
      data := keepNames n.data
        ((n.children.filter fun c => !t.contains c).filterMap (removedNameOf? s)) } := by
  have hkept : ¬ r.Removes s starts x := by
    rw [← h.contains_eq_false_iff (h.contains_of_contains hx), hx]
    exact nofun
  have hchildren := childrenOf_of_get? hn
  have hchild : ∀ c ∈ n.children,
      (t.contains c = false ↔ r.Visits s starts x ∧ r.excludes s c = true) := by
    intro c hc
    rw [← hchildren] at hc
    rw [h.contains_eq_false_iff (w.contains_child hc), removes_child_iff (w.parentOf_of_mem hc)]
    exact or_iff_left hkept
  by_cases hvisits : r.Visits s starts x
  · have hexcludes : ∀ c ∈ n.children, (!t.contains c) = r.excludes s c := by
      intro c hc
      rw [Bool.eq_iff_iff, Bool.not_eq_true', hchild c hc, and_iff_right hvisits]
    have hfilter : (n.children.filter fun c => !(n.children.contains c && r.excludes s c)) =
        n.children.filter t.contains := by
      refine List.filter_congr fun c hc => ?_
      rw [← hexcludes c hc, List.contains_iff_mem.mpr hc, Bool.true_and, Bool.not_not]
    rw [h.visited x hvisits, hn, Option.map_some, hchildren, cutBack, foldl_noteRemoved, hfilter,
      List.filter_congr hexcludes]
  · have hall : ∀ c ∈ n.children, t.contains c = true := by
      intro c hc
      rw [← Bool.not_eq_false, hchild c hc]
      exact fun hex => hvisits hex.1
    have hnone : (n.children.filter fun c => !t.contains c) = [] := by
      rw [List.filter_eq_nil_iff]
      intro c hc
      rw [hall c hc]
      exact Bool.false_ne_true
    rw [h.other x hvisits hkept, hn, List.filter_eq_self.mpr hall, hnone]
    rfl

/-- A statement that is left is the same apart from its children and its data. -/
theorem Pruned.exists_get? (h : Pruned r starts s t findings) (w : s.Wired)
    (hx : t.contains x = true) :
    ∃ n children data, s.get? x = some n ∧ t.get? x = some { n with children, data } := by
  obtain ⟨n, hn⟩ := contains_iff.mp (h.contains_of_contains hx)
  exact ⟨n, _, _, hn, h.get?_of_contains w hn hx⟩

/-- What pruning from the top of a tree leaves of the store. -/
theorem Pruned.trimmed {root : RootId} (w : s.Wired)
    (h : Pruned r (s.topOf root).toList s t findings) : Trimmed r root s t where
  size := h.size
  trees := h.trees
  gone_iff x hx := by
    rw [h.contains_eq_false_iff hx]
    rcases s.topOf root with _ | top
    · refine ⟨fun hremoves => ?_, nofun⟩
      obtain ⟨c, hc, -⟩ := hremoves.exists_below
      cases hc
    · rw [Option.toList_some, removes_iff_gatedOut w]
      simp
  gone_below x hx hnot y hy := by
    obtain ⟨p, c, hp, hc, hexcludes, hbelow⟩ := (h.contains_eq_false_iff hx).mp hnot
    rw [contains, h.removed y ⟨p, c, hp, hc, hexcludes, hbelow.trans hy⟩]
    rfl
  contains_of_contains x hx := h.contains_of_contains hx
  left x n hn hx := h.get?_of_contains w hn hx

/-! ## Pruning once more -/

/-- A statement that is left is the same apart from its children and its data. -/
theorem Trimmed.exists_get? {root : RootId} (h : Trimmed r root s t) (hx : t.contains x = true) :
    ∃ n children data, s.get? x = some n ∧ t.get? x = some { n with children, data } := by
  obtain ⟨n, hn⟩ := contains_iff.mp (h.contains_of_contains x hx)
  exact ⟨n, _, _, hn, h.left x n hn hx⟩

section Trimmed

variable {root : RootId} (h : Trimmed r root s t)

include h

/-- A statement that is left keeps its parent. -/
theorem Trimmed.parentOf (hx : t.contains x = true) : t.parentOf x = s.parentOf x := by
  obtain ⟨n, children, data, hn, hn'⟩ := h.exists_get? hx
  rw [parentOf_of_get? hn, parentOf_of_get? hn']

/-- A statement that is left is a feature when it was one. -/
theorem Trimmed.isFeature (hx : t.contains x = true) :
    FeatureRegistry.isFeature t x = FeatureRegistry.isFeature s x := by
  obtain ⟨n, children, data, hn, hn'⟩ := h.exists_get? hx
  rw [FeatureRegistry.isFeature, FeatureRegistry.isFeature, hn, hn']
  rfl

/-- The children that are left were children, and are live. -/
theorem Trimmed.mem_childrenOf (hc : c ∈ t.childrenOf x) :
    c ∈ s.childrenOf x ∧ t.contains c = true := by
  have hx := contains_of_mem_childrenOf hc
  obtain ⟨n, hn⟩ := contains_iff.mp (h.contains_of_contains x hx)
  rw [childrenOf_of_get? (h.left x n hn hx)] at hc
  rw [childrenOf_of_get? hn]
  exact List.mem_filter.mp hc

/-- A statement that is left has no conditions that it did not have before. -/
theorem Trimmed.conditionsOf_subset (x : NodeId) : t.conditionsOf x ⊆ s.conditionsOf x := by
  intro condition hmem
  obtain ⟨c, hc, hcondition⟩ := List.mem_filterMap.mp hmem
  obtain ⟨hchild, hkeyword⟩ := List.mem_filter.mp hc
  obtain ⟨hchild, hlive⟩ := h.mem_childrenOf hchild
  obtain ⟨n, children, data, hn, hn'⟩ := h.exists_get? hlive
  rw [hn'] at hkeyword hcondition
  refine List.mem_filterMap.mpr ⟨c, List.mem_filter.mpr ⟨hchild, ?_⟩, ?_⟩
  · rw [hn]
    exact hkeyword
  · rw [hn]
    exact hcondition

variable (hsupported : ∀ k, k ∈ q.supported ↔ k ∈ r.supported)

include hsupported

/-- The conditions on what is left go on to hold. -/
theorem Trimmed.admits (hadmits : r.admits s x = true) : q.admits t x = true := by
  rw [FeatureRegistry.admits, List.all_eq_true] at hadmits ⊢
  intro condition hmem
  rw [ScopedCondition.holds_congr hsupported]
  exact hadmits condition (h.conditionsOf_subset x hmem)

end Trimmed

section Again

variable {root : RootId} (w : s.Wired) (h : Pruned r (s.topOf root).toList s t findings)

include w h

/-- A child that is left below a statement that pruning came to was not excluded. -/
theorem Pruned.not_excludes (hp : r.Visits s (s.topOf root).toList p)
    (hc : t.parentOf c = some p) : r.excludes s c = false := by
  have hlive := contains_of_parentOf hc
  have hparent : s.parentOf c = some p := by rw [← (h.trimmed w).parentOf hlive, hc]
  rw [← Bool.not_eq_true]
  intro hexcludes
  have hremoves := (removes_child_iff hparent).mpr (.inl ⟨hp, hexcludes⟩)
  rw [← h.contains_eq_false_iff (contains_of_parentOf hparent), hlive] at hremoves
  cases hremoves

/-- Pruning once more comes to no other statements. -/
theorem Pruned.visits_again (hp : q.Visits t (s.topOf root).toList p) :
    r.Visits s (s.topOf root).toList p := by
  induction hp with
  | start hx => exact .start hx
  | child _ hc henters ih =>
    have hlive := contains_of_parentOf hc
    have hnot := h.not_excludes w ih hc
    rw [enters, Bool.and_eq_true, (h.trimmed w).isFeature hlive, Bool.not_eq_true'] at henters
    rw [excludes_of_not_isFeature henters.1, Bool.not_eq_false'] at hnot
    refine .child ih ?_ ?_
    · rw [← (h.trimmed w).parentOf hlive, hc]
    · rw [enters_of_not_isFeature henters.1, hnot]

/-- Pruning once more finds nothing to take out. -/
theorem Pruned.not_excludes_again (hsupported : ∀ k, k ∈ q.supported ↔ k ∈ r.supported)
    (hp : q.Visits t (s.topOf root).toList p) (hc : t.parentOf c = some p) :
    q.excludes t c = false := by
  have hnot := h.not_excludes w (h.visits_again w hp) hc
  rcases hfeature : isFeature s c
  · rw [excludes_of_not_isFeature hfeature, Bool.not_eq_false'] at hnot
    rw [excludes, (h.trimmed w).admits hsupported hnot, Bool.not_true, Bool.and_false]
  · refine excludes_of_isFeature ?_
    rw [(h.trimmed w).isFeature (contains_of_parentOf hc), hfeature]

end Again

/-- Pruning changes nothing where nothing is excluded. -/
theorem Pruned.eq_self (h : Pruned r starts s t findings) (w : s.Wired)
    (hnone : ∀ p c, r.Visits s starts p → s.parentOf c = some p → r.excludes s c = false) :
    t = s := by
  refine eq_of_get? h.size h.trees fun x => ?_
  by_cases hvisits : r.Visits s starts x
  · have hself : r.cutBack s (s.childrenOf x) = id := funext fun n =>
      cutBack_eq_self fun c hc => hnone x c hvisits (w.parentOf_of_mem hc)
    rw [h.visited x hvisits, hself, Option.map_id, id_eq]
  · refine h.other x hvisits ?_
    rintro ⟨p, c, hp, hc, hexcludes, -⟩
    rw [hnone p c hp hc] at hexcludes
    cases hexcludes

/-- Pruning a tree on its own has a result when pruning in a store succeeds. -/
theorem prune_of_succeeds {root : RootId} {Q : List Finding → Store → Prop}
    (h : Succeeds (r.pruneTree root) s Q) :
    ∃ result, r.prune root s = .ok result ∧ Q result.findings result.store := by
  obtain ⟨findings, u, hrun, hQ⟩ := h.exists_result
  change (r.pruneTree root).run s = (.ok findings, u) at hrun
  exact ⟨⟨u, findings⟩, by rw [prune, hrun], hQ⟩

/-- Pruning a tree takes out what is gated out in it, and nothing else.  Pruning it once more
with the same features leaves the store as it is. -/
theorem prune_trims (o : s.Owned) {root : RootId} (hroot : root ∈ s.treeIds) :
    ∃ result, r.prune root s = .ok result ∧ r.Trimmed root s result.store ∧
      ∀ q : FeatureRegistry, (∀ k, k ∈ q.supported ↔ k ∈ r.supported) →
        ∃ findings, q.prune root result.store = .ok ⟨result.store, findings⟩ := by
  obtain ⟨tree, htree⟩ := exists_tree_of_mem_treeIds hroot
  obtain ⟨⟨t, findings⟩, hrun, hpruned, hthin⟩ :=
    prune_of_succeeds ((pruneTree_spec (r := r) o htree).and (pruneTree_succeeds (r := r) o htree))
  refine ⟨⟨t, findings⟩, hrun, hpruned.trimmed o.wired, fun q hsupported => ?_⟩
  have htree' : t.tree? root = some tree := by rw [tree?, hpruned.trees, ← tree?, htree]
  have htop : t.topOf root = s.topOf root := by rw [topOf, topOf, htree, htree']
  obtain ⟨⟨u, findings'⟩, hrun', hpruned'⟩ :=
    prune_of_succeeds (pruneTree_spec (r := q) hthin.owned htree')
  rw [htop] at hpruned'
  have heq : u = t := hpruned'.eq_self hthin.owned.wired fun p c hp hc =>
    hpruned.not_excludes_again o.wired hsupported hp hc
  exact ⟨findings', by rw [hrun', heq]⟩

/-! ## A gated leaf -/

/-- An element of a document of one module. -/
def sampleElement (name : String) (value : Option String) : Element where
  name := name
  value := value
  line := none
  source := none
  scope := ⟨"m", Dictionary.empty⟩
  children := []

/-- A module with a leaf that depends on a feature, and with another leaf. -/
def gatedModule : Store :=
  let s := (({} : Store).addTree none .implement).2
  let s := (StoreM.plant {} (sampleElement "module" (some "m")) ⟨0⟩ s).2
  let s := (StoreM.instantiate {} (sampleElement "leaf" (some "gated")) (some ⟨0⟩) ⟨0⟩ s).2
  let s := (StoreM.instantiate {} (sampleElement "if-feature" (some "f")) (some ⟨1⟩) ⟨0⟩ s).2
  (StoreM.instantiate {} (sampleElement "leaf" (some "open")) (some ⟨0⟩) ⟨0⟩ s).2

/-- This store can be reached by operations. -/
theorem reachable_gatedModule : Reachable gatedModule :=
  (((Reachable.empty.addTree none .implement).plant _ _ _).instantiate _ _ _ _).instantiate _ _ _ _
    |>.instantiate _ _ _ _

/-- The leaf is gated out. -/
theorem gatedOut_gatedModule : GatedOut {} gatedModule ⟨0⟩ ⟨1⟩ := by
  have hparent : gatedModule.parentOf ⟨1⟩ = some ⟨0⟩ := by decide +kernel
  refine ⟨⟨1⟩, below_of_parentOf hparent, by decide, .self,
    admits_eq_false_iff.mp (by decide +kernel), fun y htop hne hy => ?_⟩
  obtain rfl | hy := (below_iff_of_parentOf hparent).mp hy
  · decide +kernel
  · exact absurd (hy.eq_of_parentOf_eq_none (by decide +kernel)) hne

/-- Without its feature the leaf is taken out, and its condition with it. -/
theorem prune_trims_gatedModule :
    gatedModule.Owned ∧ (⟨0⟩ : RootId) ∈ gatedModule.treeIds ∧
      ∃ result, ({} : FeatureRegistry).prune ⟨0⟩ gatedModule = .ok result ∧
        result.store.contains ⟨1⟩ = false ∧ result.store.contains ⟨2⟩ = false := by
  have hroot : (⟨0⟩ : RootId) ∈ gatedModule.treeIds := by decide +kernel
  obtain ⟨result, hresult, htrimmed, -⟩ :=
    prune_trims (r := {}) reachable_gatedModule.owned hroot
  have hgone : result.store.contains ⟨1⟩ = false := by
    rw [htrimmed.gone_iff ⟨1⟩ (by decide +kernel)]
    exact ⟨⟨0⟩, by decide +kernel, gatedOut_gatedModule⟩
  refine ⟨reachable_gatedModule.owned, hroot, result, hresult, hgone, ?_⟩
  exact htrimmed.gone_below ⟨1⟩ (by decide +kernel) hgone ⟨2⟩
    (below_of_parentOf (by decide +kernel))

end FeatureRegistry
end StatementForest
