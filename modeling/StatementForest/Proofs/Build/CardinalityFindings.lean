import StatementForest.Proofs.Schema.SeparateDocuments
import StatementForest.Proofs.Build.CardinalityRemarks

/-!
# Reports about the number of children

The grammar says how often the children of a core statement occur.  When nothing is suppressed
and nothing asks to stop, each statement that processing makes has exactly the findings that its
element deserves: one for each name that may occur once and occurs again, one for each name that
must occur and does not, and one for each name that no list has.  A finding is kept once, however
often it is reported.

Main results:

- Theorem `repeated_mem_grammarSteps_iff`: which names are repeated.
- Theorem `Cardinalities.Remarks.repeated_iff`, `Cardinalities.Remarks.required_iff`: the
  remarks about a statement, from its element and the cardinalities.
- Theorem `BuildM.process_elaborates_below`: every statement that is made is elaborated.
- Theorem `BuildM.process_remarks`: the remarks about every statement are recorded.
- Theorem `BuildM.process_counts`: how often they are in the log, and that no others are.

Current gaps:

- Nothing is suppressed here.  Under a policy that suppresses some kinds the counts of the others
  follow from `Schema.build_of_policies`.
-/

namespace StatementForest

open Store

/-! ## Messages -/

/-- Messages about repeated children differ in the child. -/
theorem repeatedMessage_inj {child child' parent : String} :
    repeatedMessage child parent = repeatedMessage child' parent ↔ child = child' := by
  unfold repeatedMessage
  rw [String.append_left_inj, String.append_left_inj, String.append_left_inj,
    String.append_right_inj]

/-- Messages about children that must occur once differ in the child. -/
theorem requiredMessage_inj {child child' parent : String} :
    requiredMessage child parent = requiredMessage child' parent ↔ child = child' := by
  unfold requiredMessage
  rw [String.append_left_inj, String.append_left_inj, String.append_left_inj,
    String.append_right_inj]

/-- Messages about children that must occur at least once differ in the child. -/
theorem requiredOnceMessage_inj {child child' parent : String} :
    requiredOnceMessage child parent = requiredOnceMessage child' parent ↔ child = child' := by
  unfold requiredOnceMessage
  rw [String.append_left_inj, String.append_left_inj, String.append_left_inj,
    String.append_right_inj]

namespace Text

/-- The text ends with the characters. -/
def Ends (cs : List Char) (s : String) : Prop := cs <:+ s.toList

variable {cs ds : List Char} {s t : String}

/-- A text in front does not change how a text ends. -/
theorem Ends.append (h : Ends cs t) (s : String) : Ends cs (s ++ t) := by
  rw [Ends, String.toList_append]
  exact h.trans (List.suffix_append _ _)

/-- Texts with different ends are different. -/
theorem Ends.ne (hs : Ends cs s) (ht : Ends ds t) (h : ¬ cs <:+ ds ∧ ¬ ds <:+ cs) : s ≠ t := by
  rintro rfl
  exact (List.suffix_or_suffix_of_suffix hs ht).elim h.1 h.2

end Text

/-- Below one parent the two messages about missing children differ.  They end in the same way,
and what comes before ends in different letters. -/
theorem requiredMessage_ne (child child' parent : String) :
    requiredMessage child parent ≠ requiredOnceMessage child' parent := by
  have hrequired : Text.Ends ['d', ' ', 'u', 'n', 'd', 'e', 'r', ' ', '\x27']
      "' required under '" := by
    unfold Text.Ends
    decide
  have honce : Text.Ends ['e', ' ', 'u', 'n', 'd', 'e', 'r', ' ', '\x27']
      "' required at least once under '" := by
    unfold Text.Ends
    decide
  unfold requiredMessage requiredOnceMessage
  rw [Ne, String.append_left_inj, String.append_left_inj]
  exact (hrequired.append _).ne (honce.append _) (by decide)

/-! ## Repeated names -/

section Names

variable {c : Cardinalities} {names seen : List String} {children : List Element} {name : String}

/-- A name that may occur once is repeated when it occurs twice, or has been seen and occurs. -/
theorem repeated_mem_singletonSteps (hname : names.contains name = true)
    (hcount : (if seen.contains name then 1 else 2) ≤ children.countP (·.name == name)) :
    .repeated name ∈ singletonSteps names seen children := by
  induction children generalizing seen with
  | nil =>
    rw [List.countP_nil] at hcount
    split at hcount <;> omega
  | cons child rest ih =>
    rw [singletonSteps]
    by_cases heq : child.name = name
    · rw [List.countP_cons_of_pos (by exact beq_iff_eq.mpr heq)] at hcount
      rw [heq, if_pos hname]
      split
      · exact List.mem_cons_self
      · next hseen =>
        refine List.mem_cons_of_mem _ (ih ?_)
        rw [if_neg hseen] at hcount
        rw [List.contains_cons, beq_self_eq_true, Bool.true_or, if_pos rfl]
        omega
    · rw [List.countP_cons_of_neg (by exact fun h => heq (beq_iff_eq.mp h))] at hcount
      split
      · split
        · exact List.mem_cons_of_mem _ (ih hcount)
        · refine List.mem_cons_of_mem _ (ih ?_)
          rw [List.contains_cons, beq_false_of_ne (Ne.symm heq), Bool.false_or]
          exact hcount
      · exact ih hcount

/-- The names that are repeated are those that may occur once and occur twice. -/
theorem repeated_mem_grammarSteps_iff : .repeated name ∈ grammarSteps c children ↔
    name ∈ c.mandatorySingleton ++ c.optionalSingleton ∧
      2 ≤ children.countP (·.name == name) := by
  constructor
  · intro h
    have hname := contains_of_repeated_mem_grammarSteps h
    exact ⟨List.contains_iff_mem.mp hname, two_le_countP_of_repeated_mem_grammarSteps h⟩
  · rintro ⟨hname, hcount⟩
    have hstep : ∀ names : List String, name ∈ names →
        .repeated name ∈ singletonSteps names [] children := fun names hmem =>
      repeated_mem_singletonSteps (List.contains_iff_mem.mpr hmem) hcount
    simp only [grammarSteps, List.mem_append]
    obtain hname | hname := List.mem_append.mp hname
    · exact .inl (.inl (.inl (hstep _ hname)))
    · exact .inl (.inr (hstep _ hname))

/-- Children that are complained about have names that no list has. -/
theorem of_mem_unexpectedChildren {child : Element}
    (h : child ∈ unexpectedChildren c seen children) :
    child.isQualified = false ∧ c.allows child.name = false := by
  induction children generalizing seen with
  | nil => cases h
  | cons first rest ih =>
    rw [unexpectedChildren] at h
    split at h
    · exact ih h
    · next hskip =>
      obtain rfl | h := List.mem_cons.mp h
      · simp only [Bool.or_eq_true, not_or, Bool.not_eq_true] at hskip
        exact hskip.1
      · exact ih h

end Names

/-! ## Remarks about one statement -/

namespace Cardinalities.Remarks

variable {c : Cardinalities} {x y : NodeId} {e : Element} {f : Finding} {name : String}

/-- A remark is about the statement, or about an element. -/
theorem eq_of_node? (h : c.Remarks y e f) (hf : f.node? = some x) : x = y := by
  cases h with
  | «repeated» => exact (Option.some.inj hf).symm
  | missing => exact (Option.some.inj hf).symm
  | unexpected => cases hf

/-- A child is remarked as repeated when it may occur once and occurs twice. -/
theorem repeated_iff : c.Remarks x e (repeatedFinding x e name) ↔
    name ∈ c.mandatorySingleton ++ c.optionalSingleton ∧
      2 ≤ e.children.countP (·.name == name) := by
  rw [← repeated_mem_grammarSteps_iff]
  refine ⟨fun h => ?_, .repeated⟩
  generalize hf : repeatedFinding x e name = f at h
  cases h with
  | «repeated» h =>
    rw [repeatedMessage_inj.mp (congrArg Finding.message hf)]
    exact h
  | missing => cases congrArg Finding.kind hf
  | unexpected => cases congrArg Finding.subject hf

/-- A remark about what is missing has one of the messages about missing children. -/
theorem missing_iff {message : String} : c.Remarks x e (missingFinding x e message) ↔
    message ∈ missingMessages c e := by
  refine ⟨fun h => ?_, .missing⟩
  generalize hf : missingFinding x e message = f at h
  cases h with
  | «repeated» => cases congrArg Finding.kind hf
  | missing h =>
    rw [show message = _ from congrArg Finding.message hf]
    exact h
  | unexpected => cases congrArg Finding.subject hf

/-- A child is remarked as missing when it must occur once and does not occur. -/
theorem required_iff : c.Remarks x e (missingFinding x e (requiredMessage name e.name)) ↔
    name ∈ c.mandatorySingleton ∧ e.hasChild name = false := by
  rw [missing_iff, mem_missingMessages]
  constructor
  · rintro ⟨name', hlacks, ⟨hmem, heq⟩ | ⟨-, heq⟩⟩
    · rw [requiredMessage_inj.mp heq]
      exact ⟨hmem, hlacks⟩
    · exact absurd heq (requiredMessage_ne _ _ _)
  · exact fun ⟨hmem, hlacks⟩ => ⟨name, hlacks, .inl ⟨hmem, rfl⟩⟩

/-- A child is remarked as missing when it must occur at least once and does not occur. -/
theorem requiredOnce_iff : c.Remarks x e (missingFinding x e (requiredOnceMessage name e.name)) ↔
    name ∈ c.mandatoryMultiple ∧ e.hasChild name = false := by
  rw [missing_iff, mem_missingMessages]
  constructor
  · rintro ⟨name', hlacks, ⟨-, heq⟩ | ⟨hmem, heq⟩⟩
    · exact absurd heq.symm (requiredMessage_ne _ _ _)
    · rw [requiredOnceMessage_inj.mp heq]
      exact ⟨hmem, hlacks⟩
  · exact fun ⟨hmem, hlacks⟩ => ⟨name, hlacks, .inr ⟨hmem, rfl⟩⟩

/-- The first child of a name that no list has is complained about. -/
theorem unexpected_of_find? {first : Element}
    (hfirst : e.children.find? (·.name == first.name) = some first)
    (hname : first.isQualified = false) (hallows : c.allows first.name = false) :
    c.Remarks x e (unexpectedFinding e first) := by
  obtain ⟨child, hchild, hfind⟩ := find?_mem_unexpectedChildren
    (List.mem_of_find?_eq_some hfirst) hname hallows List.not_mem_nil
  rw [hfirst] at hfind
  cases hfind
  exact .unexpected hchild

end Cardinalities.Remarks

/-! ## Remarks about names without a list -/

/-- The lists of every statement hold keywords of the core language. -/
def Grammar.NamesKeywords (g : Grammar) : Prop :=
  ∀ name c, g.find? name = some c → ∀ child ∈ c.names, Keyword.isKeyword child = true

/-- The names below a keyword are keywords when all names of the grammar are. -/
theorem Grammar.NamesKeywords.below {g : Grammar} (h : g.NamesKeywords) (k : Keyword)
    {name : String} (hname : (g.below k).allows name = true) : Keyword.isKeyword name = true := by
  rw [Cardinalities.allows_iff, Grammar.below] at hname
  rcases hc : g.find? k.text with _ | c <;> rw [hc] at hname
  · cases hname
  · exact h _ c hc name hname

/-- The standard grammar names keywords only. -/
theorem Grammar.namesKeywords_standard : Grammar.standard.NamesKeywords := by
  have hall : ∀ e ∈ standardEntries ++ childless.map fun name =>
      (name, Cardinalities.mk [] [] [] []), ∀ child ∈ e.2.names,
        Keyword.isKeyword child = true := by decide +kernel
  intro name c hc
  exact hall (name, c) (Dictionary.mem_of_find?_ofList hc)

/-- Statements of one name have the same keyword. -/
theorem Suppliers.Makes.eq_of_name_eq {s : Suppliers} {e e' : Element} {k k' : Keyword}
    (h : s.Makes e (.core k)) (h' : s.Makes e' (.core k')) (hname : e.name = e'.name) : k = k' := by
  rw [h.name_eq, h'.name_eq] at hname
  exact Keyword.text_injective hname

/-- A complaint about a child says which names no list has: the parent is named when the child is
a keyword, and no list has the name when it is none. -/
theorem Cardinalities.Remarks.of_unexpected {env : Environment} {x : NodeId} {k k' : Keyword}
    {e e' first : Element} (hgrammar : env.grammar.NamesKeywords)
    (hmakes : env.suppliers.Makes e (.core k)) (hmakes' : env.suppliers.Makes e' (.core k'))
    (h : (env.grammar.below k').Remarks x e' (unexpectedFinding e first)) :
    first.isQualified = false ∧ (env.grammar.below k).allows first.name = false := by
  generalize hf : unexpectedFinding e first = f at h
  cases h with
  | «repeated» => cases congrArg Finding.subject hf
  | missing => cases congrArg Finding.subject hf
  | @unexpected child hchild =>
    have hname : first.name = child.name :=
      congrArg Origin.name (Subject.element.inj (congrArg Finding.subject hf))
    obtain ⟨hqualified, hallows⟩ := of_mem_unexpectedChildren hchild
    rw [← Element.isQualified_congr hname] at hqualified
    rw [← hname] at hallows
    refine ⟨hqualified, ?_⟩
    by_cases hcore : Keyword.isKeyword first.name = true
    · have hmessage := congrArg Finding.message hf
      simp only [unexpectedFinding, unexpectedFault, ← hname, if_pos hcore] at hmessage
      rw [String.append_left_inj, String.append_right_inj] at hmessage
      rw [hmakes.eq_of_name_eq hmakes' hmessage]
      exact hallows
    · rw [← Bool.not_eq_true]
      exact fun hallowed => hcore (hgrammar.below k hallowed)

/-! ## Counts -/

namespace BuildState

/-- How often the findings about the children of an element are in the log, when a statement
with some cardinalities views the element.  Findings about elements may have been there before. -/
structure Counts (state : BuildState) (before : FindingLog) (x : NodeId) (e : Element)
    (c : Cardinalities) : Prop where
  repeated : ∀ name, state.log.entries.count (repeatedFinding x e name) =
    if name ∈ c.mandatorySingleton ++ c.optionalSingleton ∧
      2 ≤ e.children.countP (·.name == name) then 1 else 0
  required : ∀ name,
    state.log.entries.count (missingFinding x e (requiredMessage name e.name)) =
      if name ∈ c.mandatorySingleton ∧ e.hasChild name = false then 1 else 0
  requiredOnce : ∀ name,
    state.log.entries.count (missingFinding x e (requiredOnceMessage name e.name)) =
      if name ∈ c.mandatoryMultiple ∧ e.hasChild name = false then 1 else 0
  unexpected : ∀ first, e.children.find? (·.name == first.name) = some first →
    state.log.entries.count (unexpectedFinding e first) =
      if unexpectedFinding e first ∈ before.entries ∨
        first.isQualified = false ∧ c.allows first.name = false then 1 else 0

/-- What looks like a remark about a statement that had no findings is one. -/
theorem ReportsRemarks.remarks_of_mem {env : Environment} {state t : BuildState} {x : NodeId}
    {n : Node}
    {k : Keyword} {f : Finding} (h : ReportsRemarks env state t)
    (hold : ∀ f ∈ state.log.entries, f.node? ≠ some x) (hn : t.store.get? x = some n)
    (hk : n.variant = .core k) (hf : f ∈ t.log.entries) (hnode : f.node? = some x)
    (hlike : f.LikeRemark) : (env.grammar.below k).Remarks x n.element f := by
  obtain hf | ⟨y, key, k', e, hface, -, hremark⟩ := h.said f hf hlike
  · exact absurd hnode (hold f hf)
  · cases hremark.eq_of_node? hnode
    rw [faceOf, hn, Option.map_some, Option.some.injEq, Node.face, Prod.mk.injEq, Prod.mk.injEq,
      hk, Variant.core.injEq] at hface
    obtain ⟨-, rfl, rfl⟩ := hface
    exact hremark

end BuildState

namespace BuildM

open BuildState

variable {env : Environment} {e : Element} {parent? : Option NodeId} {root : RootId} {id : NodeId}
  {state : BuildState} {s : Store}

/-- The number of a new statement was not in use. -/
theorem not_contains_of_instantiate_eq
    (hnew : StoreM.instantiate env.suppliers e parent? root state.store =
      (.ok (.created id), s)) : state.store.contains id = false := by
  obtain ⟨-, r, hr⟩ | ⟨-, f, hf, -⟩ := env.suppliers.resolveElement_outcome e
  · cases (StoreM.face_of_instantiate_eq hr hnew).1
    rw [Store.contains, get?_fresh]
    rfl
  · rw [StoreM.instantiate_of_error hf] at hnew
    cases hnew

/-- Unless something asks to stop, processing a new statement succeeds, and the statements of its
subtree are new and elaborated. -/
theorem process_elaborates_below (hstop : env.stopAt = none) (o : state.store.Owned)
    (hnew : StoreM.instantiate env.suppliers e parent? root state.store =
      (.ok (.created id), s)) :
    ∃ t, process env id { state with store := s } = (.ok (), t) ∧
      ∀ x, t.store.Below id x → t.Elaborated env x ∧ state.store.contains x = false := by
  obtain ⟨os, v, hmakes, hblank⟩ := StoreM.blank_of_instantiate_eq o hnew
  have hprocess : Succeeds (process env id) { state with store := s } fun _ t =>
      AddsElaborated env id { state with store := s } t ∧ t.Elaborated env id :=
    process_elaborates hstop os hmakes hblank
  have hkeeps : state.store.KeepsStatements s := by
    have h := KeepsStatements.stepwise.instantiate env.suppliers e parent? root state.store
    rwa [hnew] at h
  unfold Succeeds Yields at hprocess
  rcases hrun : process env id { state with store := s } with ⟨f | _, t⟩ <;> rw [hrun] at hprocess
  · exact hprocess.elim
  obtain ⟨hadds, helaborated⟩ := hprocess
  refine ⟨t, rfl, fun x hx => ?_⟩
  obtain rfl | ⟨hlive, hfresh⟩ := hadds.new_of_below os.wired hblank.childrenOf hx
  · exact ⟨helaborated, not_contains_of_instantiate_eq hnew⟩
  · refine ⟨hadds.elaborated x hlive hfresh, ?_⟩
    rw [← Bool.not_eq_true]
    intro hold
    rw [show s.contains x = true from hkeeps.contains hold] at hfresh
    cases hfresh

/-- Processing a new statement records all remarks about the statements that it makes, of which
none was reported about before. -/
theorem process_remarks (hstop : env.stopAt = none) (o : state.store.Owned)
    (hanchored : state.Anchored) (hshown : ∀ kind, state.log.policy.suppresses kind = false)
    (hnew : StoreM.instantiate env.suppliers e parent? root state.store =
      (.ok (.created id), s)) :
    ∃ t, process env id { state with store := s } = (.ok (), t) ∧
      ReportsRemarks env { state with store := s } t ∧
      (∃ key v, env.suppliers.Makes e v ∧ t.store.faceOf id = some (key, v, e)) ∧
      ∀ x n k, t.store.Below id x → t.store.get? x = some n → n.variant = .core k →
        env.suppliers.Makes n.element (.core k) ∧
          (∀ f, (env.grammar.below k).Remarks x n.element f → f ∈ t.log.entries) ∧
          ∀ f ∈ state.log.entries, f.node? ≠ some x := by
  obtain ⟨-, v, hmakes, m, hm, rfl, rfl, -⟩ := StoreM.blank_of_instantiate_eq o hnew
  obtain ⟨t, hrun, hbelow⟩ := process_elaborates_below hstop o hnew
  have htold : ReportsRemarks env { state with store := s }
    (process env id { state with store := s }).2 :=
    reportsRemarks_process hm hmakes
  rw [hrun] at htold
  have hface : s.faceOf id = some (m.key, m.variant, m.element) := by
    rw [faceOf, hm]
    rfl
  refine ⟨t, hrun, htold, ⟨m.key, m.variant, hmakes, htold.keepsStatements id _ hface⟩,
    fun x n k hx hn hk => ?_⟩
  obtain ⟨helaborated, hunused⟩ := hbelow x hx
  have hfollows := helaborated n hn
  refine ⟨hk ▸ hfollows.variant, fun f hf => ?_, fun f hf hnode => ?_⟩
  · refine hfollows.remarks k hk f hf ?_
    rw [htold.log.policy]
    exact hshown f.kind
  · rw [hanchored f hf x hnode] at hunused
    cases hunused

/-- When nothing is suppressed and nothing asks to stop, processing a new statement succeeds.
Then the log holds, for every core statement in its subtree, exactly the findings that its element
deserves by the cardinalities of its keyword, each once.  A keyword without an entry has four
empty lists, and the lists of an entry may overlap. -/
theorem process_counts (hstop : env.stopAt = none) (hgrammar : env.grammar.NamesKeywords)
    (o : state.store.Owned) (hanchored : state.Anchored) (hnodup : state.log.entries.Nodup)
    (hshown : ∀ kind, state.log.policy.suppresses kind = false)
    (hnew : StoreM.instantiate env.suppliers e parent? root state.store =
      (.ok (.created id), s)) :
    ∃ t, process env id { state with store := s } = (.ok (), t) ∧
      (∃ key v, env.suppliers.Makes e v ∧ t.store.faceOf id = some (key, v, e)) ∧
      ∀ x n k, t.store.Below id x → t.store.get? x = some n → n.variant = .core k →
        t.Counts state.log x n.element ((env.grammar.find? k.text).getD {}) := by
  obtain ⟨t, hrun, htold, hview, hremarks⟩ := process_remarks hstop o hanchored hshown hnew
  refine ⟨t, hrun, hview, fun x n k hx hn hk => ?_⟩
  obtain ⟨hmakes, hrecorded, hold⟩ := hremarks x n k hx hn hk
  have hcount := fun f => (htold.nodup hnodup).count (a := f)
  have hmem : ∀ f, f.node? = some x → f.LikeRemark →
      (f ∈ t.log.entries ↔ (env.grammar.below k).Remarks x n.element f) := fun f hnode hlike =>
    ⟨fun hf => htold.remarks_of_mem hold hn hk hf hnode hlike, hrecorded f⟩
  refine ⟨fun name => ?_, fun name => ?_, fun name => ?_, fun first hfirst => ?_⟩
  · rw [hcount]
    exact if_congr ((hmem _ rfl (.repeated x _ name)).trans
      Cardinalities.Remarks.repeated_iff) rfl rfl
  · rw [hcount]
    exact if_congr ((hmem _ rfl (.required x _ name)).trans
      Cardinalities.Remarks.required_iff) rfl rfl
  · rw [hcount]
    exact if_congr ((hmem _ rfl (.requiredOnce x _ name)).trans
      Cardinalities.Remarks.requiredOnce_iff) rfl rfl
  · rw [hcount]
    refine if_congr ⟨fun hf => ?_, ?_⟩ rfl rfl
    · refine (htold.said _ hf (.unexpected _ _)).imp_right ?_
      rintro ⟨y, key, k', e', -, hmakes', hremark⟩
      exact hremark.of_unexpected hgrammar hmakes hmakes'
    · rintro (hf | ⟨hqualified, hallows⟩)
      · exact htold.log.entries.subset hf
      · exact hrecorded _ (.unexpected_of_find? hfirst hqualified hallows)

/-- A leaf with two types and an unknown child has one finding for each, and lacks nothing. -/
theorem process_counts_crowdedLeaf :
    ∃ t, process { grammar := .standard, suppliers := {} } ⟨0⟩
        { store := (Store.alloc {} (StoreM.freshNode crowdedLeaf
          ⟨Key.core "leaf", .core .leaf⟩ ⟨0⟩)).2 } = (.ok (), t) ∧
      t.log.entries.count (repeatedFinding ⟨0⟩ crowdedLeaf "type") = 1 ∧
      t.log.entries.count
        (missingFinding ⟨0⟩ crowdedLeaf (requiredMessage "type" crowdedLeaf.name)) = 0 := by
  have hresolve : Suppliers.resolveElement {} crowdedLeaf =
      .ok ⟨Key.core "leaf", .core .leaf⟩ := by rfl
  have hnew : StoreM.instantiate {} crowdedLeaf none ⟨0⟩ ({} : Store) = _ :=
    StoreM.instantiate_none_apply hresolve
  obtain ⟨t, hrun, ⟨key, v, ⟨r, hr, hvariant⟩, hface⟩, h⟩ :=
    @process_counts { grammar := .standard, suppliers := {} } crowdedLeaf none ⟨0⟩ ⟨0⟩ {} _ rfl
      Grammar.namesKeywords_standard Owned.empty (fun _ hf => absurd hf List.not_mem_nil)
      List.nodup_nil (fun kind => by cases kind <;> rfl) hnew
  obtain rfl : v = .core .leaf := by
    rw [hresolve] at hr
    cases hr
    exact hvariant.symm
  obtain ⟨n, hn, hnface⟩ := Option.map_eq_some_iff.mp hface
  have hcounts := h ⟨0⟩ n .leaf .self hn (congrArg (·.2.1) hnface)
  rw [show n.element = crowdedLeaf from congrArg (·.2.2) hnface] at hcounts
  refine ⟨t, hrun, ?_, ?_⟩
  · rw [hcounts.repeated]
    exact if_pos (by decide +kernel)
  · rw [hcounts.required]
    exact if_neg (by decide +kernel)

end BuildM
end StatementForest
