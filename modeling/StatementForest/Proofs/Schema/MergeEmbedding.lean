import StatementForest.Proofs.Store.AtomicMutations
import StatementForest.Proofs.Schema.FindingViews

/-!
# Merging embeds

A store that is taken in by another one keeps its shape.  Every number of a statement that it
holds is shifted behind the statements that were there, every number of a tree behind the trees,
and nothing that was there is touched.  Documents are built apart from each other, so the merged
state of several documents consists of what was built for each, one behind the other.

Main results:

- Theorem `Node.distinctFindings_eq`: no two findings of a statement become one.
- Theorems `Store.Merged.absorb`, `Store.Embeds.absorb`: what is taken in is embedded, and
  remains so when more is taken in.
- Theorem `Schema.merge_embeds`: merging of two stores, and of all documents.
-/

namespace StatementForest

/-! ## Findings under shifted numbers -/

/-- Different findings stay different when they are shifted. -/
theorem Finding.shift_inj {f g : Finding} {offset : Nat} :
    f.shift offset = g.shift offset ↔ f = g := by
  refine ⟨fun h => ?_, congrArg _⟩
  obtain ⟨subject, kind, message⟩ := f
  obtain ⟨subject', kind', message'⟩ := g
  cases subject <;> cases subject' <;>
    simp_all [Finding.shift, Subject.shift, NodeId.shift_inj]

/-- Findings may be shifted before or after one is inserted. -/
theorem insertFinding_shift (offset : Nat) (findings : List Finding) (f : Finding) :
    insertFinding (findings.map (Finding.shift offset)) (f.shift offset) =
      (insertFinding findings f).map (Finding.shift offset) := by
  have hmem : f.shift offset ∈ findings.map (Finding.shift offset) ↔ f ∈ findings := by
    simp only [List.mem_map, Finding.shift_inj, exists_eq_right]
  unfold insertFinding
  by_cases h : f ∈ findings
  · rw [if_pos h, if_pos (hmem.mpr h)]
  · rw [if_neg h, if_neg (mt hmem.mp h), List.map_append]
    rfl

/-- The findings of a statement in the order of their first report, each once. -/
def Node.distinctFindings (n : Node) : List Finding := n.findings.foldl insertFinding []

/-- Different findings are all inserted at the end. -/
theorem foldl_insertFinding_of_nodup {known findings : List Finding}
    (h : (known ++ findings).Nodup) : findings.foldl insertFinding known = known ++ findings := by
  induction findings generalizing known with
  | nil => exact (List.append_nil known).symm
  | cons f rest ih =>
    have hnew : f ∉ known := fun hf => List.disjoint_of_nodup_append h hf List.mem_cons_self
    have hstep : insertFinding known f = known ++ [f] := if_neg hnew
    rw [List.append_cons] at h ⊢
    rw [List.foldl_cons, hstep, ih h]

/-- Findings that are told apart are kept as they are. -/
theorem Node.distinctFindings_eq {n : Node} (h : n.findings.Nodup) :
    n.distinctFindings = n.findings := by
  rw [← List.nil_append n.findings] at h
  exact foldl_insertFinding_of_nodup h

/-- Findings may be shifted before or after several are inserted. -/
theorem foldl_insertFinding_shift (offset : Nat) (findings known : List Finding) :
    (findings.map (Finding.shift offset)).foldl insertFinding
        (known.map (Finding.shift offset)) =
      (findings.foldl insertFinding known).map (Finding.shift offset) := by
  induction findings generalizing known with
  | nil => rfl
  | cons f rest ih =>
    rw [List.map_cons, List.foldl_cons, List.foldl_cons, insertFinding_shift, ih]

/-- No two findings of a statement become one when they are shifted. -/
theorem Node.shift_eq (slots trees : Nat) (n : Node) :
    n.shift slots trees =
      { n with
        parent := n.parent.map (·.shift slots)
        root := n.root.shift trees
        children := n.children.map (·.shift slots)
        findings := n.distinctFindings.map (Finding.shift slots) } := by
  have hfindings := foldl_insertFinding_shift slots n.findings []
  rw [List.map_nil] at hfindings
  rw [Node.shift, hfindings, Node.distinctFindings]

namespace Store

variable {s other part whole : Store} {slots trees : Nat}

/-! ## Stores in other stores -/

/-- One store is a part of another one, behind `slots` statements and `trees` trees.  Every number
that it holds is shifted, and nothing else differs. -/
structure Embeds (part whole : Store) (slots trees : Nat) : Prop where
  slots_le : slots + part.slots.size ≤ whole.slots.size
  trees_le : trees + part.trees.size ≤ whole.trees.size
  vacant : ∀ x, x.index < part.slots.size → part.get? x = none →
    whole.get? (x.shift slots) = none
  statement : ∀ x n, part.get? x = some n → whole.get? (x.shift slots) = some
    { n with
      parent := n.parent.map (·.shift slots)
      root := n.root.shift trees
      children := n.children.map (·.shift slots)
      findings := n.distinctFindings.map (Finding.shift slots) }
  tree : ∀ r t, part.tree? r = some t → whole.tree? (r.shift trees) = some
    { t with
      top := t.top.map (·.shift slots)
      owner := t.owner.map (·.shift trees)
      submodules := t.submodules.map (·.shift trees) }

/-- No two findings of a statement become one. -/
theorem Embeds.findings (h : part.Embeds whole slots trees) {x : NodeId} {n : Node}
    (hn : part.get? x = some n) (hdistinct : n.findings.Nodup) :
    (whole.get? (x.shift slots)).map Node.findings =
      some (n.findings.map (Finding.shift slots)) := by
  rw [h.statement x n hn, Option.map_some, Node.distinctFindings_eq hdistinct]

/-- The third store is the first one, with the second one behind it, and nothing else. -/
structure Merged (s other whole : Store) : Prop where
  owned : whole.Owned
  size : whole.slots.size = s.slots.size + other.slots.size
  size_trees : whole.trees.size = s.trees.size + other.trees.size
  left : ∀ x, x.index < s.slots.size → whole.get? x = s.get? x
  left_tree : ∀ r, r.index < s.trees.size → whole.tree? r = s.tree? r
  right : other.Embeds whole s.slots.size s.trees.size
  findings : ∀ x n, other.get? x = some n → n.findings.Nodup →
    (whole.get? (x.shift s.slots.size)).map Node.findings =
      some (n.findings.map (Finding.shift s.slots.size))
  below_left : ∀ a x, s.contains x = true → (whole.Below a x ↔ s.Below a x)
  below_right : ∀ a x,
    whole.Below (a.shift s.slots.size) (x.shift s.slots.size) ↔ other.Below a x
  only : ∀ y, whole.contains y = true →
    s.contains y = true ∨ ∃ x, other.contains x = true ∧ y = x.shift s.slots.size

/-- What is taken in is embedded behind what was there. -/
theorem embeds_absorb (s other : Store) :
    other.Embeds (s.absorb other) s.slots.size s.trees.size where
  slots_le := Nat.le_of_eq (size_slots_absorb s other).symm
  trees_le := Nat.le_of_eq (size_trees_absorb s other).symm
  vacant x _ hx := by rw [get?_absorb_right, hx, Option.map_none]
  statement x n hn := by rw [get?_absorb_right, hn, Option.map_some, Node.shift_eq]
  tree r t ht := by
    rw [tree?_absorb_right, ht]
    rfl

/-- Two stores that keep the invariant are merged into one that does. -/
theorem Merged.absorb (o : s.Owned) (o' : other.Owned) : Merged s other (s.absorb other) where
  owned := o.absorb o'
  size := size_slots_absorb s other
  size_trees := size_trees_absorb s other
  left _ hx := get?_absorb_left hx
  left_tree _ hr := tree?_absorb_left hr
  right := embeds_absorb s other
  findings _ _ := (embeds_absorb s other).findings
  below_left _ _ hx := below_absorb_left o.wired hx
  below_right _ _ := below_absorb_right
  only y hy := by
    obtain hlt | ⟨x, rfl⟩ := y.lt_or_shift s.slots.size
    · rw [contains_absorb_left hlt] at hy
      exact .inl hy
    · rw [contains_absorb_right] at hy
      exact .inr ⟨x, hy, rfl⟩

/-- A part stays where it is when more is taken in. -/
theorem Embeds.absorb (h : part.Embeds whole slots trees) (other : Store) :
    part.Embeds (whole.absorb other) slots trees where
  slots_le := by
    rw [size_slots_absorb]
    exact Nat.le_add_right_of_le h.slots_le
  trees_le := by
    rw [size_trees_absorb]
    exact Nat.le_add_right_of_le h.trees_le
  vacant x hx hnone := by
    have hlt : (x.shift slots).index < whole.slots.size := by
      have hle := h.slots_le
      rw [NodeId.shift]
      dsimp only
      omega
    rw [get?_absorb_left hlt]
    exact h.vacant x hx hnone
  statement x n hn := by
    have hn' := h.statement x n hn
    rw [get?_absorb_left (lt_size_of_get? hn')]
    exact hn'
  tree r t ht := by
    have ht' := h.tree r t ht
    rw [tree?_absorb_left (lt_size_of_tree? ht')]
    exact ht'

end Store

/-! ## Documents one behind the other -/

namespace Schema

open Store BuildState

/-- The number of statement slots before those of one of several builds. -/
def slotsBefore (builds : List BuildState) (i : Nat) : Nat :=
  ((builds.take i).map fun b => b.store.slots.size).sum

/-- The findings of several builds, about the statements under their numbers in the merged
store. -/
def shiftedFindings (builds : List BuildState) : List Finding :=
  builds.zipIdx.flatMap fun p => p.1.log.entries.map (Finding.shift (slotsBefore builds p.2))

/-- A state that consists of several builds, one behind the other. -/
structure Assembled (policy : SeverityPolicy) (builds : List BuildState) (merged : BuildState) :
    Prop where
  size : merged.store.slots.size = slotsBefore builds builds.length
  size_trees : merged.store.trees.size = builds.length
  embeds : ∀ i (b : BuildState), builds[i]? = some b →
    b.store.Embeds merged.store (slotsBefore builds i) i
  findings : ∀ i (b : BuildState), builds[i]? = some b → ∀ x n, b.store.get? x = some n →
    (merged.store.get? (x.shift (slotsBefore builds i))).map Node.findings =
      some (n.findings.map (Finding.shift (slotsBefore builds i)))
  log : merged.log = (FindingLog.empty policy).addAll (shiftedFindings builds)
  mem_log : ∀ f, f ∈ merged.log.entries ↔
    ∃ i, ∃ b : BuildState, builds[i]? = some b ∧
      ∃ g ∈ b.log.entries, f = Finding.shift (slotsBefore builds i) g

section Builds

variable {policy : SeverityPolicy} {builds : List BuildState} {b merged : BuildState} {i : Nat}

/-- Later builds do not change the number of slots before an earlier one. -/
theorem slotsBefore_append (h : i ≤ builds.length) (later : List BuildState) :
    slotsBefore (builds ++ later) i = slotsBefore builds i := by
  rw [slotsBefore, slotsBefore, List.take_append_of_le_length h]

/-- Before the end there are all slots. -/
theorem slotsBefore_length (builds : List BuildState) :
    slotsBefore builds builds.length = (builds.map fun b => b.store.slots.size).sum := by
  rw [slotsBefore, List.take_length]

/-- Another build adds its slots. -/
theorem slotsBefore_concat (builds : List BuildState) (b : BuildState) :
    slotsBefore (builds ++ [b]) (builds ++ [b]).length =
      slotsBefore builds builds.length + b.store.slots.size := by
  rw [slotsBefore_length, slotsBefore_length, List.map_append, List.sum_append,
    List.map_singleton, List.sum_singleton]

/-- Another build adds its findings, shifted by all slots before. -/
theorem shiftedFindings_concat (builds : List BuildState) (b : BuildState) :
    shiftedFindings (builds ++ [b]) = shiftedFindings builds ++
      b.log.entries.map (Finding.shift (slotsBefore builds builds.length)) := by
  have hbefore : ∀ p ∈ builds.zipIdx,
      slotsBefore (builds ++ [b]) p.2 = slotsBefore builds p.2 := by
    intro p hp
    exact slotsBefore_append (Nat.le_of_lt (List.snd_lt_of_mem_zipIdx hp)) [b]
  have hfirst : builds.zipIdx.flatMap (fun p =>
      p.1.log.entries.map (Finding.shift (slotsBefore (builds ++ [b]) p.2))) =
        shiftedFindings builds :=
    List.flatMap_congr fun p hp => by rw [hbefore p hp]
  rw [shiftedFindings, List.zipIdx_append, List.flatMap_append, hfirst, List.zipIdx_singleton,
    List.flatMap_singleton, Nat.zero_add, slotsBefore_append (Nat.le_refl _)]

/-- A shifted finding is one of a build, shifted by the slots before it. -/
theorem mem_shiftedFindings {f : Finding} : f ∈ shiftedFindings builds ↔
    ∃ i, ∃ b : BuildState, builds[i]? = some b ∧
      ∃ g ∈ b.log.entries, f = Finding.shift (slotsBefore builds i) g := by
  rw [shiftedFindings, List.mem_flatMap]
  constructor
  · rintro ⟨⟨b, i⟩, hb, hf⟩
    obtain ⟨g, hg, rfl⟩ := List.mem_map.mp hf
    exact ⟨i, b, List.mem_zipIdx_iff_getElem?.mp hb, g, hg, rfl⟩
  · rintro ⟨i, b, hb, g, hg, rfl⟩
    exact ⟨(b, i), List.mem_zipIdx_iff_getElem?.mpr hb, List.mem_map_of_mem hg⟩

/-- What holds of what has been built for one document. -/
structure Single (policy : SeverityPolicy) (b : BuildState) : Prop where
  size_trees : b.store.trees.size = 1
  findingsMirrored : FindingsMirrored policy b
  distinct : b.log.entries.Nodup

/-- No statement of a single build has a finding twice. -/
theorem Single.nodup_findings (h : Single policy b) {x : NodeId} {n : Node}
    (hn : b.store.get? x = some n) : n.findings.Nodup := by
  rw [h.findingsMirrored.mirrorsLog x n hn]
  exact h.distinct.filter _

/-- What is recorded of several single builds is what their policy shows, and so all of it. -/
theorem mem_log_of_single (hsingle : ∀ b ∈ builds, Single policy b) (f : Finding) :
    f ∈ ((FindingLog.empty policy).addAll (shiftedFindings builds)).entries ↔
      ∃ i, ∃ b : BuildState, builds[i]? = some b ∧
        ∃ g ∈ b.log.entries, f = Finding.shift (slotsBefore builds i) g := by
  rw [FindingLog.mem_addAll, ← mem_shiftedFindings]
  refine ⟨fun h => (h.resolve_left List.not_mem_nil).1, fun hf => .inr ⟨hf, ?_⟩⟩
  obtain ⟨i, b, hb, g, hg, rfl⟩ := mem_shiftedFindings.mp hf
  have hshown := (hsingle b (List.mem_of_getElem? hb)).findingsMirrored.shown g hg
  rwa [SeverityPolicy.shows, Bool.not_eq_true'] at hshown

/-- An empty state consists of no builds. -/
theorem Assembled.nil (policy : SeverityPolicy) :
    Assembled policy [] { log := FindingLog.empty policy } where
  size := rfl
  size_trees := rfl
  embeds _ _ hb := by cases hb
  findings _ _ hb := by cases hb
  log := rfl
  mem_log f := by simp [FindingLog.empty]

/-- One more build is put behind the others. -/
theorem Assembled.absorb (h : Assembled policy builds merged)
    (hsingle : ∀ c ∈ builds ++ [b], Single policy c) :
    Assembled policy (builds ++ [b]) (merged.absorb b) := by
  have hb := hsingle b (by simp)
  have hlog : (merged.absorb b).log =
      (FindingLog.empty policy).addAll (shiftedFindings (builds ++ [b])) := by
    rw [BuildState.absorb, h.log, h.size, shiftedFindings_concat]
    exact List.foldl_append.symm
  have hembeds : ∀ i (c : BuildState), (builds ++ [b])[i]? = some c →
      c.store.Embeds (merged.absorb b).store (slotsBefore (builds ++ [b]) i) i := by
    intro i c hc
    by_cases hi : i < builds.length
    · rw [List.getElem?_append_left hi] at hc
      rw [slotsBefore_append (Nat.le_of_lt hi)]
      exact (h.embeds i c hc).absorb b.store
    · have hlast : i = builds.length := by
        have hlt := List.getElem?_eq_some_iff.mp hc |>.1
        rw [List.length_append, List.length_singleton] at hlt
        omega
      subst hlast
      rw [List.getElem?_concat_length] at hc
      cases hc
      rw [slotsBefore_append (Nat.le_refl _), ← h.size, ← h.size_trees]
      exact embeds_absorb merged.store b.store
  constructor
  case size =>
    rw [slotsBefore_concat, ← h.size]
    exact size_slots_absorb _ _
  case size_trees =>
    rw [List.length_append, List.length_singleton, ← h.size_trees, ← hb.size_trees]
    exact size_trees_absorb _ _
  case embeds => exact hembeds
  case findings =>
    intro i c hc x n hn
    have hdistinct := (hsingle c (List.mem_of_getElem? hc)).nodup_findings hn
    exact (hembeds i c hc).findings hn hdistinct
  case log => exact hlog
  case mem_log =>
    rw [hlog]
    exact mem_log_of_single hsingle

/-- All builds are put one behind the other. -/
theorem Assembled.foldl {done : List BuildState} (h : Assembled policy done merged)
    (hsingle : ∀ b ∈ done ++ builds, Single policy b) :
    Assembled policy (done ++ builds) (builds.foldl BuildState.absorb merged) := by
  induction builds generalizing done merged with
  | nil =>
    rw [List.append_nil]
    exact h
  | cons b rest ih =>
    rw [List.append_cons] at hsingle ⊢
    exact ih (h.absorb fun c hc => hsingle c (List.mem_append_left _ hc)) hsingle

end Builds

/-! ## Builds of documents -/

section Documents

variable {env : Environment} {policy : SeverityPolicy} {documents : List SchemaDocument}
  {builds : List BuildState} {s other : Store}

/-- What is built for a document records each finding once. -/
theorem nodup_built (env : Environment) (policy : SeverityPolicy) (d : SchemaDocument) :
    (d.built env policy).log.entries.Nodup := by
  have hkept : (d.populate (env.stopping env.stopAt)).Preserves
      fun state => state.log.entries.Nodup :=
    (Uniform.of_invariant env.stopAt env.stopAt (fun _ _ _ h => h)
      fun _ _ _ _ _ h => FindingLog.nodup_add h).populateDocument d
  exact hkept _ List.nodup_nil

/-- A document that is built on its own gives one tree with the findings about it. -/
theorem single_of_build {d : SchemaDocument} {b : BuildState}
    (h : d.build env policy = .ok b) : Single policy b := by
  have hbuilt : b = d.built env policy := by
    rw [SchemaDocument.build_eq] at h
    rw [SchemaDocument.built]
    rcases hrun : d.populate env { log := FindingLog.empty policy } with ⟨e | _, t⟩ <;>
      rw [hrun] at h <;> cases h
    rfl
  obtain ⟨state, hstate, hstanding⟩ | ⟨e, he, -⟩ := d.build_outcome env policy
  · rw [h] at hstate
    cases hstate
    refine ⟨hstanding.size_trees, ?_, ?_⟩ <;> rw [hbuilt]
    · exact d.built_findingsMirrored env policy
    · exact nodup_built env policy d
  · rw [h] at he
    cases he

/-- What is built for each document is a build on its own. -/
theorem single_of_builds
    (h : List.Forall₂ (fun d b => SchemaDocument.build env policy d = .ok b) documents builds) :
    ∀ b ∈ builds, Single policy b := by
  induction h with
  | nil => exact fun _ hb => absurd hb List.not_mem_nil
  | cons hbuild _ ih =>
    intro b hb
    obtain rfl | hb := List.mem_cons.mp hb
    · exact single_of_build hbuild
    · exact ih b hb

/-- Merging embeds a second store behind the first one.  When every document can be built on its
own, the merged state consists of these builds, one behind the other. -/
theorem merge_embeds (o : s.Owned) (o' : other.Owned)
    (hbuilds : List.Forall₂ (fun d b => SchemaDocument.build env policy d = .ok b)
      documents builds) :
    Merged s other (s.absorb other) ∧
      ∃ merged, merge env policy documents = .ok merged ∧ Assembled policy builds merged := by
  refine ⟨.absorb o o', _, ?_, (Assembled.nil policy).foldl (single_of_builds hbuilds)⟩
  rw [merge, mapM_eq_ok_of_forall₂ hbuilds]
  rfl

end Documents

/-- The grammar of the core language, and no suppliers. -/
def coreEnvironment : Environment where
  grammar := Grammar.standard
  suppliers := {}

/-- A store behind itself, and a document behind itself. -/
theorem merge_embeds_namelessDocuments :
    Store.sample.Owned ∧
      List.Forall₂ (fun d b => SchemaDocument.build coreEnvironment .standard d = .ok b)
        [namelessDocument, namelessDocument]
        [namelessDocument.built coreEnvironment .standard,
          namelessDocument.built coreEnvironment .standard] ∧
      Merged Store.sample Store.sample (Store.sample.absorb Store.sample) ∧
      (∃ merged,
        merge coreEnvironment .standard [namelessDocument, namelessDocument] = .ok merged ∧
          Assembled .standard [namelessDocument.built coreEnvironment .standard,
            namelessDocument.built coreEnvironment .standard] merged) ∧
      (Store.sample.absorb Store.sample).childrenOf ⟨0⟩ = [⟨1⟩] ∧
      (Store.sample.absorb Store.sample).childrenOf ⟨3⟩ = [⟨4⟩] := by
  have hstop : coreEnvironment.stopAt = none := rfl
  have hbuild := (SchemaDocument.build_builtSoundly hstop .standard namelessDocument).1
  have hbuilds : List.Forall₂ (fun d b => SchemaDocument.build coreEnvironment .standard d = .ok b)
      [namelessDocument, namelessDocument] _ := .cons hbuild (.cons hbuild .nil)
  obtain ⟨hmerged, hall⟩ := merge_embeds Store.sample_owned Store.sample_owned hbuilds
  exact ⟨Store.sample_owned, hbuilds, hmerged, hall, by decide +kernel, by decide +kernel⟩

end Schema
end StatementForest
