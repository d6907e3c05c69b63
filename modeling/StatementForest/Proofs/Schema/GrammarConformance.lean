import StatementForest.Proofs.Schema.BuildStages

/-!
# Merged statements obey the grammar

With a proper grammar the children of a statement view what the grammar keeps of its element, in
this order, and what the element lacks is recorded.  This is so for every document, and merging
keeps it.  Every model has a top, and before linking no tree has an owner.

Main results:

- Theorem `ObeysGrammar.absorb`: merging keeps what is known of two states.
- Theorem `Schema.exists_obeysGrammar`: every schema comes from documents that obey the grammar.
- Theorem `ObeysGrammar.childrenOfKeyword_eq_nil`: what the grammar does not foresee is not there.
- Theorem `ObeysGrammar.exists_firstOfKeyword`: what it demands is there when the element has it.
-/

namespace StatementForest

open Store

/-- The children of an element of which statements are made. -/
def Grammar.keptBelow (g : Grammar) (v : Variant) (children : List Element) : List Element :=
  match v with
  | .core k => (g.below k).kept children
  | .extension _ _ => keptFreely children

/-- What is known of a state that was built with a proper grammar for some documents, as far as
it does not follow from their being sound. -/
structure ObeysGrammar (g : Grammar) (policy : SeverityPolicy) (documents : List SchemaDocument)
    (state : BuildState) : Prop where
  policy : state.log.policy = policy
  view : ∀ x n, state.store.get? x = some n →
    n.children.map state.store.elementOf = (g.keptBelow n.variant n.element.children).map some
  missing : ∀ x n k, state.store.get? x = some n → n.variant = .core k →
    ∀ message ∈ missingMessages (g.below k) n.element,
      state.log.Records (missingFinding x n.element message)
  /-- Every model has a top. -/
  crowned : ∀ (i : Nat) d, documents[i]? = some d → d.isModel = true →
    ∃ x, state.store.topOf ⟨i⟩ = some x
  alone : ∀ r, state.store.ownerOf r = none

/-! ## Keywords -/

/-- The keyword of a statement is the name of its element. -/
theorem Store.Faithful.isKeyword_iff {suppliers : Suppliers} {s : Store}
    (h : s.Faithful suppliers) {x : NodeId} {n : Node} (hn : s.get? x = some n) (k : Keyword) :
    n.isKeyword k = true ↔ n.element.name = k.text := by
  rw [Node.isKeyword_iff]
  have hmakes := h.variant x n hn
  exact ⟨fun hk => (hk ▸ hmakes).name_eq, fun hname => hmakes.eq_core hname⟩

/-! ## Kept children -/

section Kept

variable {c : Cardinalities} {children : List Element} {e : Element}

/-- What the grammar keeps it allows, or it is the use of an extension. -/
theorem Cardinalities.allows_of_mem_kept (h : e ∈ c.kept children) :
    c.allows e.name = true ∨ e.isQualified = true := by
  rw [kept, List.mem_append] at h
  obtain h | h := h
  · rw [← extracted_grammarSteps] at h
    exact .inl (allows_of_mem_grammarSteps
      (ChildStep.mem_extracted.mp (List.mem_of_mem_filter h)))
  · exact .inr (Element.isQualified_of_isBound (List.mem_filter.mp h).2)

/-- Of the children with a name that has not been seen the first one is taken. -/
theorem exists_extract_mem_singletonSteps {names seen : List String} {name : String}
    (hname : names.contains name = true) (hseen : seen.contains name = false)
    (h : e ∈ children) (he : e.name = name) :
    ∃ first, .extract first ∈ singletonSteps names seen children ∧ first.name = name := by
  induction children generalizing seen with
  | nil => cases h
  | cons child rest ih =>
    rw [singletonSteps]
    by_cases hchild : child.name = name
    · rw [hchild, if_pos hname, if_neg (by rw [hseen]; exact Bool.false_ne_true)]
      exact ⟨child, List.mem_cons_self, hchild⟩
    have hmem : e ∈ rest := (List.mem_cons.mp h).resolve_left fun heq => hchild (heq ▸ he)
    split
    · split
      · obtain ⟨first, hfirst, hsame⟩ := ih hseen hmem
        exact ⟨first, List.mem_cons_of_mem _ hfirst, hsame⟩
      · have hlater : (child.name :: seen).contains name = false := by
          rw [List.contains_cons, hseen, Bool.or_false, beq_eq_false_iff_ne]
          exact Ne.symm hchild
        obtain ⟨first, hfirst, hsame⟩ := ih hlater hmem
        exact ⟨first, List.mem_cons_of_mem _ hfirst, hsame⟩
    · exact ih hseen hmem

/-- A child that must occur is kept, or another one with its name. -/
theorem Cardinalities.exists_mem_kept {k : Keyword}
    (hname : c.mandatorySingleton.contains k.text = true) (h : e ∈ children)
    (he : e.name = k.text) : ∃ first ∈ c.kept children, first.name = k.text := by
  have hseen : ([] : List String).contains k.text = false := rfl
  obtain ⟨first, hfirst, hsame⟩ := exists_extract_mem_singletonSteps hname hseen h he
  refine ⟨first, ?_, hsame⟩
  rw [← ChildStep.mem_extracted, extracted_singletonSteps] at hfirst
  have hcore : first.isCore = true := by
    rw [Element.isCore, hsame, Keyword.isKeyword, Keyword.ofText?_text]
    rfl
  rw [kept]
  refine List.mem_append_left _ (List.mem_filter.mpr ⟨?_, hcore⟩)
  exact List.mem_append_left _ (List.mem_append_left _ (List.mem_append_left _ hfirst))

end Kept

/-! ## What is known of merged states -/

variable {env : Environment} {g : Grammar} {policy : SeverityPolicy} {suppliers : Suppliers}
  {documents documents' : List SchemaDocument} {a b : BuildState}

/-! ## Merging -/

/-- What the first log records the merged log records. -/
theorem FindingLog.Records.absorb_left {f : Finding} (h : a.log.Records f) :
    (a.absorb b).log.Records f := by
  intro hshown
  rw [BuildState.absorb, policy_addAll] at hshown
  exact BuildState.mem_absorb.mpr (.inl (h hshown))

/-- What the second log records the merged log records, shifted. -/
theorem FindingLog.Records.absorb_right {f : Finding} (hpolicy : a.log.policy = b.log.policy)
    (h : b.log.Records f) : (a.absorb b).log.Records (f.shift a.store.slots.size) := by
  intro hshown
  rw [BuildState.absorb, policy_addAll] at hshown
  refine BuildState.mem_absorb.mpr (.inr ⟨⟨f, h ?_, rfl⟩, hshown⟩)
  rw [← hpolicy]
  exact hshown

/-- A store with one tree only has no tree with an owner. -/
theorem TreesOf.ownerOf_eq_none {d : SchemaDocument} {s : Store} (h : TreesOf [d] s)
    (r : RootId) : s.ownerOf r = none := by
  rcases howner : s.ownerOf r with _ | q
  · rfl
  obtain ⟨tree, htree⟩ := h.owned.affiliated.exists_tree howner
  have hq := lt_size_of_tree? htree
  have hr := lt_size_of_ownerOf howner
  rw [h.size_trees, List.length_singleton, Nat.lt_one_iff] at hq hr
  have hsame : q = r := by
    obtain ⟨q⟩ := q
    obtain ⟨r⟩ := r
    rw [show q = r from hq.trans hr.symm]
  rw [hsame] at howner
  exact absurd howner (h.owned.affiliated.ownerOf_ne_self r)

namespace ObeysGrammar

/-- An empty state obeys the grammar for no documents. -/
theorem empty (g : Grammar) (policy : SeverityPolicy) :
    ObeysGrammar g policy [] { log := FindingLog.empty policy } where
  policy := rfl
  view _ _ hn := by cases hn
  missing _ _ _ hn := by cases hn
  crowned _ _ hd := by cases hd
  alone _ := rfl

/-- Merging keeps what is known of two states. -/
theorem absorb (sa : Sound suppliers documents a) (ha : ObeysGrammar g policy documents a)
    (hb : ObeysGrammar g policy documents' b) : ObeysGrammar g policy (documents ++ documents')
      (a.absorb b) where
  policy := (FindingLog.policy_addAll _ _).trans ha.policy
  view x n hn := by
    obtain ⟨-, hn⟩ | ⟨y, m, -, hm, rfl⟩ := get?_absorb_cases hn
    · rw [← ha.view x n hn]
      refine List.map_congr_left fun c hc => ?_
      rw [← childrenOf_of_get? hn] at hc
      have hlt := lt_size_of_contains (sa.treesOf.owned.wired.contains_child hc)
      rw [BuildState.absorb, elementOf, faceOf_absorb_left hlt, ← elementOf]
    · have hview := hb.view y m hm
      rw [Node.shift, List.map_map]
      dsimp only
      rw [← hview]
      refine List.map_congr_left fun c _ => ?_
      rw [Function.comp_apply, BuildState.absorb, elementOf, faceOf_absorb_right, ← elementOf]
  missing x n k hn hk message hmessage := by
    obtain ⟨-, hn⟩ | ⟨y, m, rfl, hm, rfl⟩ := get?_absorb_cases hn
    · exact (ha.missing x n k hn hk message hmessage).absorb_left
    · exact (hb.missing y m k hm hk message hmessage).absorb_right (ha.policy.trans hb.policy.symm)
  crowned i d hd hmodel := by
    have hsize := sa.treesOf.size_trees
    by_cases hi : i < documents.length
    · rw [List.getElem?_append_left hi] at hd
      obtain ⟨x, hx⟩ := ha.crowned i d hd hmodel
      refine ⟨x, ?_⟩
      rw [BuildState.absorb, topOf, tree?_absorb_left (hsize ▸ hi), ← topOf, hx]
    · rw [List.getElem?_append_right (by omega)] at hd
      obtain ⟨x, hx⟩ := hb.crowned (i - documents.length) d hd hmodel
      have hshift : (⟨i⟩ : RootId) = RootId.shift ⟨i - documents.length⟩ a.store.trees.size := by
        rw [RootId.shift, hsize, Nat.sub_add_cancel (by omega)]
      refine ⟨x.shift a.store.slots.size, ?_⟩
      rw [hshift, BuildState.absorb, topOf_absorb_right, hx]
      rfl
  alone r := by
    obtain hr | ⟨q, rfl⟩ := r.lt_or_shift a.store.trees.size
    · rw [BuildState.absorb, ownerOf, tree?_absorb_left hr, ← ownerOf, ha.alone]
    · rw [BuildState.absorb, ownerOf_absorb_right, hb.alone]
      rfl

end ObeysGrammar

/-! ## Documents -/

/-- What is built for a document obeys its grammar. -/
theorem SchemaDocument.BuiltSoundly.obeysGrammar {d : SchemaDocument} (hg : env.grammar.Proper)
    (h : d.BuiltSoundly env policy a) : ObeysGrammar env.grammar policy [d] a where
  policy := h.policy
  view x n hn := by
    have haccounts := (h.elaborated x (contains_iff.mpr ⟨n, hn⟩) n hn).childrenAccounted hg
    rw [← childrenOf_of_get? hn]
    rcases hv : n.variant with k | ⟨supplier, c⟩ <;> rw [hv] at haccounts <;>
      exact haccounts.view
  missing x n k hn hk message hmessage :=
    (h.elaborated x (contains_iff.mpr ⟨n, hn⟩) n hn).remarks k hk _ (.missing hmessage)
  crowned i d' hd hmodel := by
    obtain ⟨rfl, rfl⟩ : i = 0 ∧ d' = d := by
      rcases i with _ | i
      · exact ⟨rfl, (Option.some.inj hd).symm⟩
      · cases hd
    exact h.crowned hmodel
  alone := h.sound.treesOf.ownerOf_eq_none

/-- All merged documents obey the grammar. -/
theorem Schema.gather_obeysGrammar (hstop : env.stopAt = none) (hg : env.grammar.Proper)
    (sa : Sound env.suppliers documents a) (ha : ObeysGrammar env.grammar policy documents a)
    (later : List SchemaDocument) :
    ObeysGrammar env.grammar policy (documents ++ later) (gather env policy a later) := by
  induction later generalizing documents a with
  | nil =>
    rw [List.append_nil]
    exact ha
  | cons d rest ih =>
    have hd := (d.build_builtSoundly hstop policy).2
    have hnext := ih (sa.absorb hd.sound) (ha.absorb sa (hd.obeysGrammar hg))
    rwa [List.append_assoc] at hnext

namespace Schema

variable {c : Configuration} {schema : Schema} {merged : BuildState}

/-- Documents that are merged with a proper grammar obey it. -/
theorem obeysGrammar_of_merge (hg : g.Proper)
    (hmerge : merge { grammar := g, suppliers } policy documents = .ok merged) :
    Sound suppliers documents merged ∧ ObeysGrammar g policy documents merged := by
  have hstop : ({ grammar := g, suppliers } : Environment).stopAt = none := rfl
  rw [merge_eq_gather hstop] at hmerge
  cases hmerge
  exact ⟨gather_sound hstop policy (sound_empty suppliers policy) documents,
    gather_obeysGrammar hstop hg (sound_empty suppliers policy) (.empty g policy) documents⟩

/-- A schema that is built with a proper grammar comes from merged documents that obey it. -/
theorem exists_obeysGrammar (hg : g.Proper)
    (hbuild : build c g suppliers documents = .ok schema) :
    ∃ merged, Sound suppliers documents merged ∧ ObeysGrammar g c.policy documents merged ∧
      Nonempty (Stages c merged schema) := by
  obtain ⟨merged, hmerged, -, hsound, -, hstages⟩ := exists_stages hbuild
  have hstop : ({ grammar := g, suppliers } : Environment).stopAt = none := rfl
  refine ⟨merged, hsound, ?_, hstages⟩
  rw [hmerged]
  exact gather_obeysGrammar hstop hg (sound_empty suppliers c.policy) (.empty g c.policy) documents

/-- Every model has a top, which views it. -/
theorem exists_top_of_build (hg : g.Proper)
    (hbuild : build c g suppliers documents = .ok schema) {i : Nat} {d : SchemaDocument}
    (hd : documents[i]? = some d) (hmodel : d.isModel = true) : ∃ top n,
      schema.store.topOf ⟨i⟩ = some top ∧ schema.store.get? top = some n ∧
        n.element = d.element := by
  have hstanding := treesOf_of_build hbuild
  obtain ⟨merged, -, hobeys, ⟨stages⟩⟩ := exists_obeysGrammar hg hbuild
  obtain ⟨top, htop⟩ := hobeys.crowned i d hd hmodel
  rw [← stages.topOf] at htop
  obtain ⟨n, hn⟩ :=
    contains_iff.mp (contains_of_rootOf (hstanding.owned.rooted.rootOf_top ⟨i⟩ top htop))
  have helement := hstanding.element_top i top htop
  rw [elementOf_of_get? hn, hd] at helement
  exact ⟨top, n, htop, hn, Option.some.inj helement⟩

/-- Without pruning the statements of a schema have the keywords that their elements name. -/
theorem isKeyword_iff_of_build (hprunes : c.prunes = false)
    (hbuild : build c g suppliers documents = .ok schema) {x : NodeId} {n : Node}
    (hn : schema.store.get? x = some n) (k : Keyword) :
    n.isKeyword k = true ↔ n.element.name = k.text := by
  obtain ⟨merged, -, -, hsound, -, ⟨stages⟩⟩ := exists_stages hbuild
  obtain ⟨m, hm, hface⟩ := (stages.alike hprunes).exists_get?_left hn
  rw [Node.isKeyword_of_face hface, Node.element_of_face hface]
  exact hsound.faithful.isKeyword_iff hm k

end Schema

/-! ## Children of a keyword -/

/-- The first child of a keyword is a child with that keyword. -/
theorem Store.mem_of_firstOfKeyword {s : Store} {x y : NodeId} {k : Keyword}
    (h : s.firstOfKeyword x k = some y) :
    y ∈ s.childrenOf x ∧ ∃ m, s.get? y = some m ∧ m.isKeyword k = true := by
  obtain ⟨rest, hchildren⟩ := List.head?_eq_some_iff.mp h
  have hmem : y ∈ s.childrenOfKeyword x k := hchildren ▸ List.mem_cons_self
  obtain ⟨hchild, hkeyword⟩ := List.mem_filter.mp hmem
  exact ⟨hchild, (Option.any_eq_true _ _).mp hkeyword⟩

namespace ObeysGrammar

variable {x : NodeId} {n : Node}

/-- Core statements have no children that the grammar does not allow below them. -/
theorem childrenOfKeyword_eq_nil (sa : Sound suppliers documents a)
    (ha : ObeysGrammar g policy documents a) (hn : a.store.get? x = some n) {k l : Keyword}
    (hk : n.variant = .core k) (hl : (g.below k).allows l.text = false) :
    a.store.childrenOfKeyword x l = [] := by
  refine List.filter_eq_nil_iff.mpr fun c hc hkeyword => ?_
  rw [childrenOf_of_get? hn] at hc
  obtain ⟨m, hm, hkeyword⟩ := (Option.any_eq_true _ _).mp hkeyword
  have hname := (sa.faithful.isKeyword_iff hm l).mp hkeyword
  have hmem : a.store.elementOf c ∈ n.children.map a.store.elementOf := List.mem_map_of_mem hc
  rw [ha.view x n hn, hk, elementOf_of_get? hm] at hmem
  obtain ⟨e, he, heq⟩ := List.mem_map.mp hmem
  cases heq
  obtain hallows | hqualified := Cardinalities.allows_of_mem_kept he
  · rw [hname, hl] at hallows
    cases hallows
  · rw [Element.isQualified, hname, List.contains_iff_mem] at hqualified
    exact l.not_mem_text hqualified

/-- What the grammar keeps is there. -/
theorem exists_view (ha : ObeysGrammar g policy documents a) (hn : a.store.get? x = some n)
    {e : Element}
    (he : e ∈ g.keptBelow n.variant n.element.children) :
    ∃ c m, c ∈ n.children ∧ a.store.get? c = some m ∧ m.element = e := by
  have hmem : some e ∈ n.children.map a.store.elementOf := by
    rw [ha.view x n hn]
    exact List.mem_map_of_mem he
  obtain ⟨c, hc, helement⟩ := List.mem_map.mp hmem
  obtain ⟨m, hm⟩ := contains_iff.mp (contains_of_elementOf helement)
  rw [elementOf_of_get? hm] at helement
  exact ⟨c, m, hc, hm, Option.some.inj helement⟩

/-- What the grammar keeps is there, among the statements of its keyword. -/
theorem exists_child (sa : Sound suppliers documents a) (ha : ObeysGrammar g policy documents a)
    (hn : a.store.get? x = some n) {e : Element} (he : e ∈ g.keptBelow n.variant n.element.children)
    {l : Keyword} (hname : e.name = l.text) : ∃ c m, c ∈ a.store.childrenOfKeyword x l ∧
      a.store.get? c = some m ∧ m.element = e := by
  obtain ⟨c, m, hc, hm, rfl⟩ := ha.exists_view hn he
  refine ⟨c, m, List.mem_filter.mpr ⟨by rwa [childrenOf_of_get? hn], ?_⟩, hm, rfl⟩
  rw [hm]
  exact (sa.faithful.isKeyword_iff hm l).mpr hname

/-- A child that must occur once is there when the element has one. -/
theorem exists_firstOfKeyword (sa : Sound suppliers documents a)
    (ha : ObeysGrammar g policy documents a) (hn : a.store.get? x = some n) {k l : Keyword}
    (hk : n.variant = .core k) (hl : (g.below k).mandatorySingleton.contains l.text = true)
    (hchild : n.element.hasChild l.text = true) :
    ∃ c, a.store.firstOfKeyword x l = some c := by
  obtain ⟨e, he, hname⟩ := List.any_eq_true.mp hchild
  obtain ⟨first, hfirst, hsame⟩ := Cardinalities.exists_mem_kept hl he (beq_iff_eq.mp hname)
  obtain ⟨c, m, hc, -⟩ := exists_child sa ha hn (by rw [hk]; exact hfirst) hsame
  rw [firstOfKeyword]
  rcases hlist : a.store.childrenOfKeyword x l with _ | ⟨d, rest⟩
  · rw [hlist] at hc
    cases hc
  · exact ⟨d, rfl⟩

/-- When a child that must occur once is not there, its absence is recorded. -/
theorem records_of_firstOfKeyword (sa : Sound suppliers documents a)
    (ha : ObeysGrammar g policy documents a) (hn : a.store.get? x = some n) {k l : Keyword}
    (hk : n.variant = .core k) (hl : (g.below k).mandatorySingleton.contains l.text = true)
    (hnone : a.store.firstOfKeyword x l = none) :
    a.log.Records (missingFinding x n.element
      ("Statement '" ++ l.text ++ "' required under '" ++ n.element.name ++ "'.")) := by
  rcases hchild : n.element.hasChild l.text with _ | _
  · refine ha.missing x n k hn hk _ (List.mem_append_left _ (List.mem_map.mpr ?_))
    refine ⟨l.text, List.mem_filter.mpr ⟨List.contains_iff_mem.mp hl, ?_⟩, rfl⟩
    rw [hchild]
    rfl
  · obtain ⟨c, hc⟩ := exists_firstOfKeyword sa ha hn hk hl hchild
    rw [hnone] at hc
    cases hc

end ObeysGrammar

/-! ## Schemas -/

namespace Schema

variable {c : Configuration} {schema : Schema}

/-- A child that must occur once is there when the element has one. -/
theorem exists_child_of_build (hg : g.Proper) (hprunes : c.prunes = false)
    (hbuild : build c g suppliers documents = .ok schema) {x : NodeId} {n : Node}
    (hn : schema.store.get? x = some n) {k l : Keyword} (hk : n.isKeyword k = true)
    (hl : (g.below k).mandatorySingleton.contains l.text = true)
    (hchild : n.element.hasChild l.text = true) : ∃ y m,
      schema.store.firstOfKeyword x l = some y ∧ schema.store.get? y = some m ∧
        m.element ∈ n.element.children ∧ m.element.name = l.text := by
  obtain ⟨merged, hsound, hobeys, ⟨stages⟩⟩ := exists_obeysGrammar hg hbuild
  have halike := stages.alike hprunes
  obtain ⟨n', hn', hface⟩ := halike.exists_get?_left hn
  have helement : n.element = n'.element := Node.element_of_face hface
  rw [Node.isKeyword_of_face hface] at hk
  rw [helement] at hchild ⊢
  obtain ⟨y, hy⟩ := hobeys.exists_firstOfKeyword hsound hn' (Node.isKeyword_iff.mp hk) hl hchild
  obtain ⟨hmem, m', hm', hkeyword⟩ := mem_of_firstOfKeyword hy
  obtain ⟨m, hm, hface'⟩ := halike.exists_get? hm'
  rw [childrenOf_of_get? hn'] at hmem
  obtain ⟨e, he, heq⟩ := hsound.faithful.children x n' hn' y hmem
  rw [elementOf_of_get? hm'] at heq
  cases heq
  have hname := (hsound.faithful.isKeyword_iff hm' l).mp hkeyword
  have hsame : m.element = m'.element := Node.element_of_face hface'
  exact ⟨y, m, (halike.firstOfKeyword x l).trans hy, hm, hsame ▸ he, hsame ▸ hname⟩

/-- When a child that must occur once is not there, this is recorded. -/
theorem missing_of_build (hg : g.Proper) (hprunes : c.prunes = false)
    (hbuild : build c g suppliers documents = .ok schema)
    (hshown : c.policy.suppresses .missingRequiredChild = false) {x : NodeId} {n : Node}
    (hn : schema.store.get? x = some n) {k l : Keyword} (hk : n.isKeyword k = true)
    (hl : (g.below k).mandatorySingleton.contains l.text = true)
    (hnone : schema.store.firstOfKeyword x l = none) :
    missingFinding x n.element ("Statement '" ++ l.text ++ "' required under '" ++ k.text ++ "'.") ∈
      schema.log.entries := by
  obtain ⟨merged, hsound, hobeys, ⟨stages⟩⟩ := exists_obeysGrammar hg hbuild
  have halike := stages.alike hprunes
  obtain ⟨n', hn', hface⟩ := halike.exists_get?_left hn
  rw [Node.isKeyword_of_face hface] at hk
  rw [halike.firstOfKeyword] at hnone
  have hrecords := hobeys.records_of_firstOfKeyword hsound hn' (Node.isKeyword_iff.mp hk) hl hnone
  rw [(hsound.faithful.isKeyword_iff hn' k).mp hk, ← Node.element_of_face hface] at hrecords
  refine stages.mem_log_of_merged (hrecords ?_)
  rw [hobeys.policy]
  exact hshown

end Schema
end StatementForest
