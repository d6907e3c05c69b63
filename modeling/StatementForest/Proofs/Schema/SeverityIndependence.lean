import Mathlib.Data.List.Induction
import StatementForest.Proofs.Schema.BuildOutcome
import StatementForest.Proofs.Build.UniformRelations

/-!
# Severities do not reach the schema

Under a policy that suppresses some kinds a build does what it does when nothing is
suppressed, and hides the findings of these kinds.  So two builds that differ in their
policies find the same statements, features and identities.

Main results:

- Theorem `HidesFindings.uniform`: every step of a build hides findings and does nothing else.
- Theorem `BuildState.hideSuppressed_absorb`: hiding findings and merging can be exchanged.
- Theorem `Configuration.suppresses_policy`: which kinds a configuration suppresses.
- Theorem `Schema.build_eq_map_hideSuppressed`: a build under a policy is the build without one
  with findings hidden.
- Theorem `Schema.build_of_policies`: policies change nothing but the findings.
-/

namespace StatementForest

/-! ## Hidden findings -/

/-- Whether findings like this one are recorded under a policy. -/
def SeverityPolicy.shows (p : SeverityPolicy) (f : Finding) : Bool := !p.suppresses f.kind

/-- A store in which the findings that a policy suppresses are hidden. -/
def Store.hideSuppressed (p : SeverityPolicy) (s : Store) : Store :=
  s.mapFindings (List.filter p.shows)

/-- A log in which the findings that a policy suppresses are hidden. -/
def FindingLog.hideSuppressed (p : SeverityPolicy) (log : FindingLog) : FindingLog where
  policy := p
  entries := log.entries.filter p.shows

/-- A state in which the findings that a policy suppresses are hidden. -/
def BuildState.hideSuppressed (p : SeverityPolicy) (state : BuildState) : BuildState where
  store := state.store.hideSuppressed p
  log := state.log.hideSuppressed p

/-- Selecting findings and inserting one can be done in either order. -/
theorem filter_insertFinding (q : Finding → Bool) (findings : List Finding) (f : Finding) :
    (insertFinding findings f).filter q =
      if q f then insertFinding (findings.filter q) f else findings.filter q := by
  unfold insertFinding
  by_cases hq : q f = true
  · by_cases hf : f ∈ findings
    · rw [if_pos hf, if_pos hq, if_pos (List.mem_filter.mpr ⟨hf, hq⟩)]
    · rw [if_neg hf, if_pos hq, if_neg fun h => hf (List.mem_of_mem_filter h),
        List.filter_append, List.filter_singleton, hq]
      rfl
  · rw [if_neg hq]
    split
    · rfl
    · rw [List.filter_append, List.filter_singleton, Bool.not_eq_true _ |>.mp hq]
      exact List.append_nil _

namespace SeverityPolicy

variable {p : SeverityPolicy} {f : Finding}

/-- A finding that is not shown has no severity. -/
theorem severityOf_of_not_shows (h : p.shows f = false) : p.severityOf f.kind = none := by
  rwa [shows, suppresses, Bool.not_eq_false', Option.isNone_iff_eq_none] at h

/-- A finding that is shown has a severity. -/
theorem severityOf_of_shows (h : p.shows f = true) : ∃ t, p.severityOf f.kind = some t := by
  rwa [shows, suppresses, Option.not_isNone, Option.isSome_iff_exists] at h

end SeverityPolicy

/-! ## Hiding and recording -/

namespace Store

variable {p : SeverityPolicy} {s : Store} {f : Finding}

/-- A hidden finding may be kept with its statement or not. -/
theorem hideSuppressed_attachFinding_of_not_shows (h : p.shows f = false) :
    (s.attachFinding f).hideSuppressed p = s.hideSuppressed p := by
  rw [attachFinding]
  split
  · next id _ =>
    have hslots : ∀ i : Nat, ((s.update id fun n =>
        { n with findings := insertFinding n.findings f }).hideSuppressed p).slots[i]? =
          (s.hideSuppressed p).slots[i]? := by
      intro i
      simp only [hideSuppressed, mapFindings, update, Array.getElem?_modify, Array.getElem?_map]
      split
      · rcases s.slots[i]? with _ | _ | n
        · rfl
        · rfl
        · simp [Node.mapFindings, filter_insertFinding, h]
      · rfl
    exact congrArg (Store.mk · s.trees) (Array.ext_getElem? hslots)
  · rfl

/-- A finding that is shown is attached before or after hiding others. -/
theorem hideSuppressed_attachFinding_of_shows (h : p.shows f = true) :
    (s.attachFinding f).hideSuppressed p = (s.hideSuppressed p).attachFinding f := by
  rw [attachFinding, attachFinding]
  split
  · refine (update_mapFindings fun n => ?_).symm
    simp only [Node.mapFindings, filter_insertFinding, h, if_true]
  · rfl

end Store

namespace FindingLog

variable {p : SeverityPolicy} {log : FindingLog} {f : Finding}

/-- A finding that the policy shows is recorded, unless it is known. -/
theorem add_of_shows (h : log.policy.shows f = true) :
    (log.add f).1 = { log with entries := insertFinding log.entries f } := by
  have hshown : log.policy.suppresses f.kind = false := by
    rwa [SeverityPolicy.shows, Bool.not_eq_true'] at h
  rw [add, insertFinding, hshown, Bool.false_or]
  by_cases hf : f ∈ log.entries
  · rw [if_pos hf, if_pos (decide_eq_true hf)]
  · rw [if_neg hf, if_neg (mt of_decide_eq_true hf)]

/-- A finding that is not shown leaves a log as it is. -/
theorem add_of_not_shows (h : log.policy.shows f = false) : (log.add f).1 = log := by
  have hhidden : log.policy.suppresses f.kind = true := by
    rwa [SeverityPolicy.shows, Bool.not_eq_false'] at h
  rw [add, hhidden, Bool.true_or, if_pos rfl]

/-- A log that shows everything takes in every finding. -/
theorem add_of_standard (h : log.policy = .standard) (f : Finding) :
    (log.add f).1 = { log with entries := insertFinding log.entries f } :=
  add_of_shows (by rw [h]; rfl)

/-- Recording findings and hiding those that are suppressed can be exchanged. -/
theorem hideSuppressed_add (h : log.policy = .standard) (f : Finding) :
    (log.add f).1.hideSuppressed p = ((log.hideSuppressed p).add f).1 := by
  rw [add_of_standard h, hideSuppressed, filter_insertFinding]
  rcases hshows : p.shows f with _ | _
  · have hsame : ((log.hideSuppressed p).add f).1 = log.hideSuppressed p := add_of_not_shows hshows
    exact hsame.symm
  · have hnew : ((log.hideSuppressed p).add f).1 =
        { log.hideSuppressed p with entries := insertFinding (log.hideSuppressed p).entries f } :=
          add_of_shows hshows
    exact hnew.symm

/-- Of several findings those that are shown are taken in before or after hiding others. -/
theorem hideSuppressed_addAll (h : log.policy = .standard) (findings : List Finding) :
    (log.addAll findings).hideSuppressed p = (log.hideSuppressed p).addAll
      (findings.filter p.shows) := by
  induction findings generalizing log with
  | nil => rfl
  | cons f rest ih =>
    have hrest := ih ((policy_add log f).trans h)
    rw [hideSuppressed_add h] at hrest
    rcases hshows : p.shows f with _ | _
    · have hsame : ((log.hideSuppressed p).add f).1 = log.hideSuppressed p :=
        add_of_not_shows hshows
      rw [hsame] at hrest
      rw [List.filter_cons_of_neg (by rw [hshows]; decide)]
      exact hrest
    · rw [List.filter_cons_of_pos hshows]
      exact hrest

end FindingLog

/-! ## Steps -/

/-- The second step does what the first one does, and has the same result, when the
findings that a policy suppresses are hidden from it.  The first one suppresses none. -/
def HidesFindings (p : SeverityPolicy) {α : Type} (m m' : BuildM α) : Prop :=
  ∀ state : BuildState, state.log.policy = .standard →
    (m state).2.log.policy = .standard ∧
      m' (state.hideSuppressed p) = ((m state).1, (m state).2.hideSuppressed p)

namespace HidesFindings

variable {p : SeverityPolicy} {env : Environment} {α β : Type}

/-- Returning a value hides nothing. -/
theorem pure (a : α) : HidesFindings p (Pure.pure a : BuildM α) (Pure.pure a) := fun _ h => ⟨h, rfl⟩

/-- Steps that differ in what is hidden do so one after the other. -/
theorem bind_of {m m' : BuildM α} {f f' : α → BuildM β} (hm : HidesFindings p m m')
    (hf : ∀ a, m.CanReturn a → HidesFindings p (f a) (f' a)) :
    HidesFindings p (m >>= f) (m' >>= f') := by
  intro state h
  obtain ⟨hpolicy, heq⟩ := hm state h
  rw [bind_apply, bind_apply, heq]
  rcases hrun : m state with ⟨e | a, t⟩
  · rw [hrun] at hpolicy
    exact ⟨hpolicy, rfl⟩
  · rw [hrun] at hpolicy
    exact hf a ⟨state, t, hrun⟩ t hpolicy

/-- What follows on looking up a statement differs in what is hidden, when it looks at no finding.
-/
theorem look {id : NodeId} {f f' : Node → BuildM β} (hf : ∀ n g, f' (n.mapFindings g) = f' n)
    (h : ∀ n, HidesFindings p (f n) (f' n)) :
    HidesFindings p (BuildM.node id >>= f) (BuildM.node id >>= f') := by
  intro state hpolicy
  rw [bind_apply, bind_apply, BuildM.node, onStore_apply, onStore_apply, StoreM.node,
    query_apply, query_apply, Store.node, Store.node]
  simp only [BuildState.hideSuppressed, Store.hideSuppressed, Store.get?_mapFindings]
  rcases state.store.get? id with _ | n
  · exact ⟨hpolicy, rfl⟩
  · simp only [Option.map_some, hf]
    exact h n state hpolicy

/-- What follows on reading the store differs in what is hidden, when it looks at no finding. -/
theorem store {f f' : Store → BuildM β} (hf : ∀ s g, f' (s.mapFindings g) = f' s)
    (h : ∀ s, HidesFindings p (f s) (f' s)) :
    HidesFindings p (BuildM.store >>= f) (BuildM.store >>= f') := by
  intro state hpolicy
  have hstep := h state.store state hpolicy
  rw [← hf state.store (List.filter p.shows)] at hstep
  exact hstep

/-- A step on the store that looks at no finding differs in what is hidden only. -/
theorem onStore {m : StoreM α} (hm : IgnoresFindings m) :
    HidesFindings p (BuildM.onStore m) (BuildM.onStore m) := by
  intro state hpolicy
  rw [onStore_apply, onStore_apply]
  refine ⟨hpolicy, ?_⟩
  simp only [BuildState.hideSuppressed, Store.hideSuppressed]
  rw [hm (List.filter p.shows) rfl]

/-- A report is either made in both runs, or suppressed and hidden. -/
theorem report (f : Finding) :
    HidesFindings p (BuildM.report (env.stopping none) f)
      (BuildM.report (env.stopping none) f) := by
  intro state hpolicy
  have hsev : state.log.severityOf f = some f.kind.defaultSeverity := by
    rw [FindingLog.severityOf, hpolicy]
    rfl
  have hlog : (state.log.add f).1.hideSuppressed p = ((state.log.hideSuppressed p).add f).1 :=
    FindingLog.hideSuppressed_add hpolicy f
  rw [BuildM.report_apply_of_some hsev]
  refine ⟨?_, ?_⟩
  · rw [BuildM.reported, FindingLog.add_of_standard hpolicy]
    exact hpolicy
  rcases hshows : p.shows f with _ | _
  · have hnone : (state.hideSuppressed p).log.severityOf f = none :=
      p.severityOf_of_not_shows hshows
    have hsame : ((state.log.hideSuppressed p).add f).1 = state.log.hideSuppressed p :=
      FindingLog.add_of_not_shows hshows
    rw [BuildM.report_apply_of_none hnone]
    simp only [BuildState.hideSuppressed, BuildM.reported, hlog, hsame,
      Store.hideSuppressed_attachFinding_of_not_shows hshows]
    rfl
  · obtain ⟨t, ht⟩ := p.severityOf_of_shows hshows
    have hsome : (state.hideSuppressed p).log.severityOf f = some t := ht
    rw [BuildM.report_apply_of_some hsome]
    simp only [BuildState.hideSuppressed, BuildM.reported, hlog,
      Store.hideSuppressed_attachFinding_of_shows hshows]
    rfl

/-- Every step of a build hides findings and does nothing else. -/
theorem uniform : Uniform env none none (HidesFindings p) where
  pure := pure
  bind_of := bind_of
  look := look
  store := store
  onStore hm _ := onStore hm
  reportOn _ _ _ := look (fun _ _ => rfl) fun _ => report _
  reportApart f _ := report f

end HidesFindings

/-! ## Documents and merging -/

/-- An empty state has nothing to hide. -/
theorem hideSuppressed_empty (p : SeverityPolicy) :
    BuildState.hideSuppressed p { log := FindingLog.empty .standard } =
      { log := FindingLog.empty p } := by
  simp [BuildState.hideSuppressed, Store.hideSuppressed, Store.mapFindings,
    FindingLog.hideSuppressed, FindingLog.empty]

/-- Building a document under a policy is building it under the standard one and hiding the rest. -/
theorem SchemaDocument.build_eq_map_hideSuppressed (env : Environment) (p : SeverityPolicy)
    (d : SchemaDocument) :
    (∀ state, d.build (env.stopping none) .standard = .ok state →
      state.log.policy = .standard) ∧
    d.build (env.stopping none) p =
      (d.build (env.stopping none) .standard).map (BuildState.hideSuppressed p) := by
  have hhides : HidesFindings p (d.populate (env.stopping none)) (d.populate (env.stopping none)) :=
    HidesFindings.uniform.populateDocument d
  obtain ⟨hpolicy, heq⟩ := hhides { log := FindingLog.empty .standard } rfl
  rw [hideSuppressed_empty] at heq
  rw [build_eq, build_eq, heq]
  rcases hrun : populate (env.stopping none) d { log := FindingLog.empty .standard } with
    ⟨e | _, t⟩
  · exact ⟨by rintro _ ⟨⟩, rfl⟩
  · rw [hrun] at hpolicy
    refine ⟨?_, rfl⟩
    rintro _ ⟨⟩
    exact hpolicy

/-- Hiding findings and renumbering those of a merged statement can be exchanged. -/
theorem Node.mapFindings_shift (p : SeverityPolicy) (slots trees : Nat) (n : Node) :
    (n.shift slots trees).mapFindings (List.filter p.shows) =
      (n.mapFindings (List.filter p.shows)).shift slots trees := by
  have hfold : ∀ findings known : List Finding,
      (findings.foldl insertFinding known).filter p.shows =
        (findings.filter p.shows).foldl insertFinding (known.filter p.shows) := by
    intro findings
    induction findings with
    | nil => exact fun _ => rfl
    | cons f rest ih =>
      intro known
      rw [List.foldl_cons, ih, filter_insertFinding]
      rcases hshows : p.shows f with _ | _
      · rw [List.filter_cons_of_neg (by rw [hshows]; decide)]
        rfl
      · rw [List.filter_cons_of_pos hshows]
        rfl
  simp only [mapFindings, shift, hfold, List.filter_map, List.filter_nil]
  rfl

/-- Findings may be hidden before or after merging two stores. -/
theorem Store.hideSuppressed_absorb (p : SeverityPolicy) (s t : Store) :
    (s.absorb t).hideSuppressed p = (s.hideSuppressed p).absorb (t.hideSuppressed p) := by
  have hshift : (fun slot : Option Node => (slot.map (Node.shift s.slots.size s.trees.size)).map
      (Node.mapFindings (List.filter p.shows))) = fun slot =>
      (slot.map (Node.mapFindings (List.filter p.shows))).map
        (Node.shift s.slots.size s.trees.size) := by
    funext slot
    rcases slot with _ | n
    · rfl
    · exact congrArg some (n.mapFindings_shift p _ _)
  simp only [hideSuppressed, mapFindings, absorb, Array.map_append, Array.map_map, Array.size_map,
    Function.comp_def, hshift]

/-- Findings may be hidden before or after merging two states. -/
theorem BuildState.hideSuppressed_absorb (p : SeverityPolicy) {state other : BuildState}
    (h : state.log.policy = .standard) :
    (state.absorb other).hideSuppressed p = (state.hideSuppressed p).absorb
      (other.hideSuppressed p) := by
  have hsize : (state.store.hideSuppressed p).slots.size = state.store.slots.size :=
    Store.size_mapFindings
  have hlog : (state.log.addAll (other.log.entries.map (Finding.shift
      state.store.slots.size))).hideSuppressed p = (state.log.hideSuppressed p).addAll
        ((other.log.hideSuppressed p).entries.map
        (Finding.shift state.store.slots.size)) := by
    rw [FindingLog.hideSuppressed_addAll h, List.filter_map]
    rfl
  simp only [hideSuppressed, absorb, Store.hideSuppressed_absorb, hlog, hsize]

namespace Schema

/-- Building and merging documents under a policy hides the findings of what is built and
merged without one. -/
theorem merge_eq_map_hideSuppressed (env : Environment) (p : SeverityPolicy)
    (documents : List SchemaDocument) :
    (∀ state, merge (env.stopping none) .standard documents = .ok state →
      state.log.policy = .standard) ∧
    merge (env.stopping none) p documents =
      (merge (env.stopping none) .standard documents).map (BuildState.hideSuppressed p) := by
  induction documents using List.reverseRecOn with
  | nil =>
    refine ⟨?_, congrArg Except.ok (hideSuppressed_empty p).symm⟩
    rintro _ ⟨⟩
    rfl
  | append_singleton documents d ih =>
    obtain ⟨hpolicy, heq⟩ := ih
    obtain ⟨-, hbuild⟩ := d.build_eq_map_hideSuppressed env p
    rw [merge_append_singleton, merge_append_singleton, heq, hbuild]
    rcases hmerge : merge (env.stopping none) .standard documents with e | state
    · exact ⟨by rintro _ ⟨⟩, rfl⟩
    rcases d.build (env.stopping none) .standard with e | other
    · exact ⟨by rintro _ ⟨⟩, rfl⟩
    · have hstate := hpolicy state hmerge
      refine ⟨?_, congrArg Except.ok (BuildState.hideSuppressed_absorb p hstate).symm⟩
      rintro _ ⟨⟩
      exact (FindingLog.policy_addAll _ _).trans hstate

end Schema

/-! ## Which kinds are suppressed -/

namespace FindingKind

/-- The kind of a code has this code. -/
theorem code_eq_of_ofCode? {code : String} {k : FindingKind} (h : ofCode? code = some k) :
    k.code = code := by
  rw [ofCode?] at h
  have hbeq := List.find?_some h
  exact eq_of_beq hbeq

end FindingKind

namespace Configuration

variable {c : Configuration} {k : FindingKind}

/-- Whether a configuration wants no findings of a kind. -/
def silences (c : Configuration) (k : FindingKind) : Bool :=
  k.code ∈ c.suppressed.getD [] || (k.code, SeverityLevel.off) ∈ c.overrideEntries

/-- Only the kind of a code gets another severity. -/
theorem suppresses_assignCode (p : SeverityPolicy) (code : String) (severity : Option Severity)
    (k : FindingKind) : (assignCode p code severity).suppresses k =
      if k.code = code then severity.isNone else p.suppresses k := by
  rw [assignCode]
  rcases hkind : FindingKind.ofCode? code with _ | kind
  · have hne : k.code ≠ code := by
      rintro rfl
      rw [FindingKind.ofCode?_code] at hkind
      cases hkind
    rw [if_neg hne]
  · have hcode : kind.code = code := FindingKind.code_eq_of_ofCode? hkind
    have hiff : k = kind ↔ k.code = code := by
      refine ⟨fun h => h ▸ hcode, fun h => ?_⟩
      rw [← h, FindingKind.ofCode?_code] at hkind
      exact Option.some.inj hkind
    simp only [SeverityPolicy.suppresses, SeverityPolicy.assign, hiff]
    split <;> rfl

/-- Only the level that is off stands for no severity. -/
theorem severity?_isNone_iff {level : SeverityLevel} :
    level.severity?.isNone = true ↔ level = .off := by
  cases level <;> decide

/-- A code has at most one override, so the kinds that overrides suppress are those that
some override switches off. -/
theorem suppresses_overridden {entries : List (String × SeverityLevel)}
    (h : SortedKeys entries) :
    (entries.foldl (fun p (code, level) => assignCode p code level.severity?)
      SeverityPolicy.standard).suppresses k = true ↔ (k.code, SeverityLevel.off) ∈ entries := by
  induction entries using List.reverseRecOn with
  | nil => simp [SeverityPolicy.suppresses, SeverityPolicy.standard]
  | append_singleton entries e ih =>
    obtain ⟨code, level⟩ := e
    obtain ⟨hsorted, -, hlast⟩ := List.pairwise_append.mp h
    rw [List.foldl_append, List.foldl_cons, List.foldl_nil, suppresses_assignCode,
      List.mem_append, List.mem_singleton]
    split
    · next hcode =>
      have hfresh : (k.code, SeverityLevel.off) ∉ entries := by
        intro hmem
        have hlt := hlast _ hmem (code, level) List.mem_cons_self
        exact String.lt_irrefl code (hcode ▸ hlt)
      rw [severity?_isNone_iff, hcode]
      constructor
      · rintro rfl
        exact .inr rfl
      · rintro (hmem | heq)
        · exact absurd (hcode ▸ hmem) hfresh
        · exact (congrArg Prod.snd heq).symm
    · next hcode =>
      rw [ih hsorted]
      refine ⟨.inl, ?_⟩
      rintro (hmem | heq)
      · exact hmem
      · exact absurd (congrArg Prod.fst heq) hcode

/-- A policy suppresses what it suppressed before, and the kinds of the codes that are added. -/
theorem suppresses_foldl (codes : List String) (p : SeverityPolicy) :
    (codes.foldl (fun p code => assignCode p code none) p).suppresses k = true ↔
      k.code ∈ codes ∨ p.suppresses k = true := by
  induction codes generalizing p with
  | nil => simp
  | cons code rest ih =>
    rw [List.foldl_cons, ih, suppresses_assignCode, List.mem_cons]
    by_cases hcode : k.code = code
    · simp [hcode]
    · simp [hcode]

/-- The policy of a configuration suppresses the kinds that the configuration names as
suppressed, and those whose override is `off`. -/
theorem suppresses_policy (c : Configuration) (k : FindingKind) :
    c.policy.suppresses k = c.silences k := by
  have hover := suppresses_overridden (k := k) (c.overrides.getD Dictionary.empty).sorted
  rw [Bool.eq_iff_iff, policy, suppresses_foldl, silences, Bool.or_eq_true, decide_eq_true_eq,
    decide_eq_true_eq]
  exact or_congr Iff.rfl hover

/-- The configuration in which every kind has its own severity. -/
def impartial (c : Configuration) : Configuration :=
  { c with overrides := none, suppressed := none }

end Configuration

/-! ## Whole builds -/

/-- A store without its findings. -/
def Store.bare (s : Store) : Store := s.mapFindings fun _ => []

/-- Hiding findings changes nothing but findings. -/
theorem Store.bare_hideSuppressed (p : SeverityPolicy) (s : Store) :
    (s.hideSuppressed p).bare = s.bare := by
  have hslot : (Option.map (Node.mapFindings fun _ => [])) ∘
      (Option.map (Node.mapFindings (List.filter p.shows))) =
      Option.map (Node.mapFindings fun _ => []) := by
    funext slot
    rcases slot with _ | n <;> rfl
  simp only [bare, hideSuppressed, mapFindings, Array.map_map, hslot]

namespace Schema

/-- A schema in which the findings that a policy suppresses are hidden. -/
def hideSuppressed (p : SeverityPolicy) (schema : Schema) : Schema :=
  { schema with store := schema.store.hideSuppressed p, log := schema.log.hideSuppressed p }

/-- Building under a policy hides findings of the schema that is built without one. -/
theorem build_eq_map_hideSuppressed {c : Configuration} (hvalid : c.validate = .ok ())
    (hstop : c.stopAt = none) (grammar : Grammar) (suppliers : Suppliers)
    (documents : List SchemaDocument) :
    build c grammar suppliers documents =
      (build c.impartial grammar suppliers documents).map (hideSuppressed c.policy) := by
  have hplain : c.impartial.validate = .ok () := rfl
  have hstop' : c.impartial.stopAt = none := hstop
  obtain ⟨hpolicy, hmerge⟩ := merge_eq_map_hideSuppressed { grammar, suppliers } c.policy documents
  have hhides :
    HidesFindings c.policy (BuildM.resolve (Environment.stopping { grammar, suppliers } none) c)
      (BuildM.resolve (Environment.stopping { grammar, suppliers } none) c) :=
    HidesFindings.uniform.resolve HidesFindings.report c
  rw [build_of_valid hvalid, build_of_valid hplain, hstop, hstop']
  change (merge (Environment.stopping { grammar, suppliers } none) c.policy documents).bind _ =
    ((merge (Environment.stopping { grammar, suppliers } none) .standard documents).bind
      _).map _
  rw [hmerge]
  rcases hstate : merge (Environment.stopping { grammar, suppliers } none) .standard documents with
    e | state
  · rfl
  obtain ⟨-, heq⟩ := hhides state (hpolicy state hstate)
  change ofResolved (BuildM.resolve (Environment.stopping { grammar, suppliers } none) c
      (state.hideSuppressed c.policy)) =
    (ofResolved (BuildM.resolve (Environment.stopping { grammar, suppliers } none) c
      state)).map _
  rw [heq]
  rcases BuildM.resolve (Environment.stopping { grammar, suppliers } none) c state with
    ⟨e | _, t⟩ <;> rfl

/-- Two schemas have the same statements, modules, features and identities. -/
structure Alike (a b : Schema) : Prop where
  store : a.store.bare = b.store.bare
  tables : a.tables = b.tables
  features : a.features = b.features
  identities : a.identities = b.identities

/-- A schema has the findings of another one but for those of silenced kinds. -/
structure FindingsFiltered (c : Configuration) (plain schema : Schema) : Prop where
  entries : schema.log.entries = plain.log.entries.filter fun f => !c.silences f.kind
  findings : ∀ id, (schema.store.get? id).map Node.findings =
    (plain.store.get? id).map fun n => n.findings.filter fun f => !c.silences f.kind

/-- A schema with hidden findings differs in them only. -/
theorem alike_hideSuppressed (p : SeverityPolicy) (schema : Schema) :
    Alike (schema.hideSuppressed p) schema where
  store := schema.store.bare_hideSuppressed p
  tables := rfl
  features := rfl
  identities := rfl

/-- Two schemas that differ from a third one in findings only do so from each other. -/
theorem Alike.trans_symm {a b plain : Schema} (ha : Alike a plain) (hb : Alike b plain) :
    Alike a b where
  store := ha.store.trans hb.store.symm
  tables := ha.tables.trans hb.tables.symm
  features := ha.features.trans hb.features.symm
  identities := ha.identities.trans hb.identities.symm

/-- Hiding what a policy suppresses filters the findings as a configuration wants it. -/
theorem findingsFiltered_hideSuppressed (c : Configuration) (schema : Schema) :
    FindingsFiltered c schema (schema.hideSuppressed c.policy) := by
  have hshows : c.policy.shows = fun f => !c.silences f.kind := by
    funext f
    rw [SeverityPolicy.shows, Configuration.suppresses_policy]
  refine ⟨?_, fun id => ?_⟩
  · rw [← hshows]
    rfl
  · rw [← hshows, hideSuppressed, Store.hideSuppressed, Store.get?_mapFindings, Option.map_map]
    rfl

/-- With known codes, and without a severity at which to stop, building ends with the
schema of the build in which every kind has its own severity, but for the findings of the
silenced kinds. -/
theorem build_findingsFiltered {c : Configuration} (hvalid : c.validate = .ok ())
    (hstop : c.stopAt = none)
    {grammar : Grammar} {suppliers : Suppliers} {documents : List SchemaDocument} {plain : Schema}
    (hplain : build c.impartial grammar suppliers documents = .ok plain) :
    ∃ schema, build c grammar suppliers documents = .ok schema ∧ Alike schema plain ∧
      FindingsFiltered c plain schema := by
  refine ⟨plain.hideSuppressed c.policy, ?_, alike_hideSuppressed c.policy plain,
    findingsFiltered_hideSuppressed c plain⟩
  rw [build_eq_map_hideSuppressed hvalid hstop, hplain]
  rfl

/-- The settings of the template, but stray documents are not reported. -/
def quietTemplate : Configuration :=
  { Configuration.template with overrides := none, suppressed := some ["P013"] }

example : (build quietTemplate Grammar.empty {} [strayDocument]).map (·.log.entries) =
    .ok [] := by cbv

end Schema
end StatementForest
