import StatementForest.Proofs.Schema.FindingViews
import StatementForest.Proofs.Build.RepeatedExtensions
import StatementForest.Proofs.Text.Shapes

/-!
# Version labels

The argument of a version label is a version: three digit runs with dots between.  When
the subtree of a label is complete, the numbers of the version are kept with it, all three
or none of them, and an argument of another shape is reported.  Whether the numbers fit
into 64 bits matters to what is kept, and not to the report.

No other step of a build touches the numbers of a version, and none reports the shape of
an argument.  So what has been said about one label stays true while other statements are
made and checked.

Main results:

- Theorem `versionNumbers?_eq_some_iff`: which arguments have numbers, and which.
- Theorem `BuildM.completeExtension_marks`: completing an extension keeps and reports what
  its rule asks for.
- Theorem `BuildM.populate_marksAdded`: after populating, so has every new extension, by
  recursion on the element.
- Theorem `BuildM.process_labels`: what is kept with the labels in the subtree of a new
  statement, and what is reported about them.

Current gaps:

- Only the rule for version labels is treated.  Rules with other forms of arguments would need the
  same lemmas for their own marks.
-/

namespace StatementForest

open Store

/-! ## Numbers of versions -/

/-- A number fits into 64 bits with a sign when it is below their half. -/
theorem inSigned64_iff {n : Nat} : Text.inSigned64 n = true ↔ n < 2 ^ 63 := by
  simp only [Text.inSigned64, Bool.and_eq_true, decide_eq_true_eq]
  have hpow : Int.pow 2 63 = ((2 ^ 63 : Nat) : Int) := rfl
  rw [hpow]
  omega

/-- A text is read as a version exactly when it is three runs of digits with dots between. -/
theorem isSome_readVersion_iff {s : String} :
    (Text.readVersion s).isSome = true ↔ ∃ v r c, Text.Version s.toList v r c := by
  simp only [Option.isSome_iff_exists, Text.readVersion_eq_some_iff,
    Text.isDigits_iff_exists_numeral]
  constructor
  · rintro ⟨text, hs, ⟨v, hv⟩, ⟨r, hr⟩, c, hc⟩
    exact ⟨v, r, c, _, _, _, hs, hv, hr, hc⟩
  · rintro ⟨v, r, c, version, release, correction, hs, hv, hr, hc⟩
    exact ⟨⟨version, release, correction⟩, hs, ⟨v, hv⟩, ⟨r, hr⟩, c, hc⟩

/-- An argument has numbers if it is a version and its numbers fit into 64 bits. -/
theorem versionNumbers?_eq_some_iff {argument : String} {numbers : List Int} :
    versionNumbers? argument = some numbers ↔
      ∃ v r c : Nat, numbers = [↑v, ↑r, ↑c] ∧ Text.Version argument.toList v r c ∧
        v < 2 ^ 63 ∧ r < 2 ^ 63 ∧ c < 2 ^ 63 := by
  have hnumber (run : List Char) (i : Int) :
      (if Text.inSigned64 (Text.digitsValue run) then some (Text.digitsValue run : Int)
        else none) = some i ↔ i = Text.digitsValue run ∧ Text.digitsValue run < 2 ^ 63 := by
    rw [Option.ite_none_right_eq_some, inSigned64_iff, and_comm, Option.some.injEq, eq_comm]
  simp only [versionNumbers?, Option.bind_eq_some_iff, Text.readVersion_eq_some_iff,
    List.mapM_cons, List.mapM_nil, Option.bind_eq_bind, hnumber, Option.pure_def,
    Option.some.injEq]
  constructor
  · rintro ⟨⟨version, release, correction⟩, ⟨hs, hv, hr, hc⟩, _, ⟨rfl, hvfits⟩, _,
      ⟨_, ⟨rfl, hrfits⟩, _, ⟨_, ⟨rfl, hcfits⟩, _, rfl, rfl⟩, rfl⟩, rfl⟩
    obtain ⟨v, hv⟩ := Text.isDigits_iff_exists_numeral.mp hv
    obtain ⟨r, hr⟩ := Text.isDigits_iff_exists_numeral.mp hr
    obtain ⟨c, hc⟩ := Text.isDigits_iff_exists_numeral.mp hc
    rw [hv.eq_digitsValue] at *
    rw [hr.eq_digitsValue] at *
    rw [hc.eq_digitsValue] at *
    exact ⟨v, r, c, rfl, ⟨_, _, _, hs, hv, hr, hc⟩, hvfits, hrfits, hcfits⟩
  · rintro ⟨v, r, c, rfl, ⟨version, release, correction, hs, hv, hr, hc⟩, hvfits, hrfits, hcfits⟩
    refine ⟨⟨version, release, correction⟩,
      ⟨hs, Text.isDigits_iff_exists_numeral.mpr ⟨v, hv⟩,
        Text.isDigits_iff_exists_numeral.mpr ⟨r, hr⟩,
        Text.isDigits_iff_exists_numeral.mpr ⟨c, hc⟩⟩, ?_⟩
    rw [hv.eq_digitsValue, hr.eq_digitsValue, hc.eq_digitsValue]
    exact ⟨_, ⟨rfl, hvfits⟩, _, ⟨_, ⟨rfl, hrfits⟩, _, ⟨_, ⟨rfl, hcfits⟩, _, rfl, rfl⟩, rfl⟩, rfl⟩

/-- The data that is kept for the version in an argument. -/
def versionData (argument : String) : Dictionary CustomValue :=
  match versionNumbers? argument with
  | none => Dictionary.empty
  | some numbers => Dictionary.ofList (versionParts.zip (numbers.map CustomValue.int))

/-- The three entries for a version. -/
def Dictionary.KeepsVersion (data : Dictionary CustomValue) (v r c : Int) : Prop :=
  data.find? "label-version" = some (.int v) ∧ data.find? "label-release" = some (.int r) ∧
    data.find? "label-correction" = some (.int c)

/-- Three numbers are found under the three names for them. -/
theorem keepsVersion_ofList (v r c : Int) :
    (Dictionary.ofList (versionParts.zip ([v, r, c].map CustomValue.int))).KeepsVersion v r c := by
  simp [Dictionary.KeepsVersion, Dictionary.ofList, Dictionary.insertAll, versionParts,
    Dictionary.find?_insert_of_ne]

/-- The three numbers are found in what is kept. -/
theorem Dictionary.KeepsVersion.unique {data : Dictionary CustomValue} {v r c v' r' c' : Int}
    (h : data.KeepsVersion v r c) (h' : data.KeepsVersion v' r' c') :
    v = v' ∧ r = r' ∧ c = c' := by
  have hv := h.1.symm.trans h'.1
  have hr := h.2.1.symm.trans h'.2.1
  have hc := h.2.2.symm.trans h'.2.2
  simp only [Option.some.injEq, CustomValue.int.injEq] at hv hr hc
  exact ⟨hv, hr, hc⟩

/-- All three numbers of a version are kept, or nothing is. -/
theorem keepsVersion_versionData_iff {argument : String} {v r c : Nat} :
    (versionData argument).KeepsVersion v r c ↔
      Text.Version argument.toList v r c ∧ v < 2 ^ 63 ∧ r < 2 ^ 63 ∧ c < 2 ^ 63 := by
  have hnumbers : versionNumbers? argument = some [↑v, ↑r, ↑c] ↔
      Text.Version argument.toList v r c ∧ v < 2 ^ 63 ∧ r < 2 ^ 63 ∧ c < 2 ^ 63 := by
    rw [versionNumbers?_eq_some_iff]
    constructor
    · rintro ⟨v', r', c', heq, h⟩
      simp only [List.cons.injEq, Nat.cast_inj, and_true] at heq
      obtain ⟨rfl, rfl, rfl⟩ := heq
      exact h
    · exact fun h => ⟨v, r, c, rfl, h⟩
  rw [← hnumbers, versionData]
  rcases hfound : versionNumbers? argument with _ | numbers
  · exact iff_of_false (fun h => nomatch h.1) nofun
  · obtain ⟨v', r', c', rfl, -⟩ := versionNumbers?_eq_some_iff.mp hfound
    have hkept := keepsVersion_ofList v' r' c'
    constructor
    · intro h
      obtain ⟨hv, hr, hc⟩ := hkept.unique h
      rw [hv, hr, hc]
    · intro h
      rw [h]
      exact keepsVersion_ofList v r c

/-- An argument without numbers leaves nothing. -/
theorem versionData_eq_empty {argument : String}
    (h : ¬ ∃ v r c : Nat, Text.Version argument.toList v r c ∧
      v < 2 ^ 63 ∧ r < 2 ^ 63 ∧ c < 2 ^ 63) : versionData argument = Dictionary.empty := by
  rw [versionData]
  rcases hfound : versionNumbers? argument with _ | numbers
  · rfl
  · obtain ⟨v, r, c, -, hversion⟩ := versionNumbers?_eq_some_iff.mp hfound
    exact absurd ⟨v, r, c, hversion⟩ h

/-! ## Marks of statements -/

/-- The rule finds that an argument is not blank and lacks the form it should have. -/
def ExtensionRule.malforms (rule : ExtensionRule) (argument : String) : Bool :=
  rule.form = some .version && !(argument.isEmpty || (Text.readVersion argument).isSome)

/-- An extension is blamed for its form when its rule finds that it lacks it. -/
theorem formFault?_eq (rule : ExtensionRule) (n : Node) :
    formFault? rule n = if rule.malforms n.argument then some Fault.malformed else none := by
  unfold formFault? ExtensionRule.malforms
  rcases rule.form with _ | ⟨⟨⟩⟩
  · rfl
  · by_cases h : (n.argument.isEmpty || (Text.readVersion n.argument).isSome) = true <;>
      simp [h, Fault.malformed]

/-- A rule for versions finds fault with an argument that is there and is no version. -/
theorem malforms_iff {rule : ExtensionRule} (h : rule.form = some .version) {argument : String} :
    rule.malforms argument = true ↔
      argument ≠ "" ∧ ¬ ∃ v r c, Text.Version argument.toList v r c := by
  rw [← isSome_readVersion_iff, ExtensionRule.malforms, h]
  simp

/-- The finding says that the argument of an extension lacks its form. -/
def Finding.saysMalformed (f : Finding) : Bool := (f.kind, f.message) = Fault.malformed

/-- What is about no statement is not about the argument of one. -/
theorem Finding.saysMalformed_of_rejects {child : Element} {f : Finding} (h : child.Rejects f) :
    f.saysMalformed = false := by
  cases h <;> exact decide_eq_false nofun

/-- The finding that an extension lacks the form of its argument. -/
def malformedFinding (x : NodeId) (e : Element) : Finding :=
  { subject := .statement x e.origin, kind := Fault.malformed.1, message := Fault.malformed.2 }

/-- What extensions keep and are reported for: data, and findings about forms. -/
abbrev Marks := Dictionary CustomValue × List Finding

/-- The marks of a statement. -/
def Node.marks (n : Node) : Marks := (n.data, n.findings.filter (·.saysMalformed))

/-- The marks that a rule asks for. -/
def ExtensionRule.marks (rule : ExtensionRule) (x : NodeId) (e : Element) : Marks :=
  (if rule.followUp = .recordVersion then versionData e.argument else Dictionary.empty,
    if rule.malforms e.argument then [malformedFinding x e] else [])

/-- The marks that a statement should have.  Only extensions with a rule have any. -/
def Variant.marks (v : Variant) (x : NodeId) (e : Element) : Marks :=
  match v with
  | .extension _ (.ruled rule) => rule.marks x e
  | _ => (Dictionary.empty, [])

namespace Store

variable {s t u : Store} {x id : NodeId} {f : Finding}

/-- What a live statement is, with its marks. -/
def markView (s : Store) (x : NodeId) : Option ((Key × Variant × Element) × Marks) :=
  (s.get? x).map fun n => (n.face, n.marks)

/-- A statement stays what it is and keeps its marks. -/
def KeepsMark (s t : Store) (x : NodeId) : Prop :=
  ∀ view, s.markView x = some view → t.markView x = some view

/-- A statement has the marks that it should have. -/
def MarkedRightly (s : Store) (x : NodeId) : Prop :=
  ∀ n, s.get? x = some n → n.marks = n.variant.marks x n.element

/-- Statements that keep their marks one step after another keep them. -/
theorem KeepsMark.composable : Composable fun s t => ∀ x, KeepsMark s t x where
  refl _ _ _ h := h
  trans h h' x view hview := h' x view (h x view hview)

/-- What is seen of a statement is what it is, with its marks. -/
theorem markView_of_get? {n : Node} (h : s.get? x = some n) :
    s.markView x = some (n.face, n.marks) := by
  rw [markView, h]
  rfl

/-- What is seen is seen of a statement. -/
theorem exists_of_markView {face : Key × Variant × Element} {marks : Marks}
    (h : s.markView x = some (face, marks)) :
    ∃ n, s.get? x = some n ∧ n.face = face ∧ n.marks = marks := by
  obtain ⟨n, hn, hview⟩ := Option.map_eq_some_iff.mp h
  exact ⟨n, hn, congrArg Prod.fst hview, congrArg Prod.snd hview⟩

/-- A statement is marked rightly when what is seen of it has the marks of its variant. -/
theorem markedRightly_of_markView {key : Key} {v : Variant} {e : Element}
    (h : s.markView x = some ((key, v, e), v.marks x e)) : s.MarkedRightly x := by
  intro n hn
  obtain ⟨_, hm, hface, hmarks⟩ := exists_of_markView h
  cases hn.symm.trans hm
  obtain ⟨-, hvariant, helement⟩ : n.key = key ∧ n.variant = v ∧ n.element = e := by
    simpa [Node.face] using hface
  rw [hmarks, hvariant, helement]

/-- A statement that is marked stays so. -/
theorem MarkedRightly.keep (h : s.MarkedRightly x) (hx : s.contains x = true)
    (hkeep : KeepsMark s t x) :
    t.MarkedRightly x := by
  obtain ⟨n, hn⟩ := contains_iff.mp hx
  have hview := markView_of_get? hn
  rw [h n hn] at hview
  exact markedRightly_of_markView (hkeep _ hview)

/-- A new statement touches no mark. -/
theorem Made.keepsMark {e : Element} {r : Resolution} {parent? : Option NodeId} {root : RootId}
    (h : Made s t e r parent? root) (x : NodeId) : KeepsMark s t x := by
  intro view hview
  obtain ⟨n, hn, rfl⟩ := Option.map_eq_some_iff.mp hview
  exact (markView_of_get? (h.stayed x n hn)).trans rfl

/-- A new statement has no mark yet. -/
theorem Made.markView_fresh {e : Element} {r : Resolution} {parent? : Option NodeId}
    {root : RootId} (h : Made s t e r parent? root) :
    t.markView s.fresh = some ((r.key, r.variant, e), Dictionary.empty, []) := by
  obtain ⟨own, hown⟩ := h.get?_fresh
  exact markView_of_get? hown

/-- Stores with the same links have statements that view the same elements. -/
theorem Parallel.elementOf (h : Parallel s t) (x : NodeId) : t.elementOf x = s.elementOf x := by
  rw [Store.elementOf, h.faceOf, Store.elementOf]

/-- A change that keeps what a statement is and its marks changes nothing that is seen. -/
theorem markView_update {f : Node → Node}
    (hf : ∀ n, s.get? id = some n → (f n).face = n.face ∧ (f n).marks = n.marks) (x : NodeId) :
    (s.update id f).markView x = s.markView x := by
  rw [markView, markView, get?_update]
  split
  · next hx =>
    rcases hn : s.get? x with _ | n
    · rfl
    · rw [hx] at hn
      simp [hf n hn]
  · rfl

/-- A finding about something else is no mark. -/
theorem markView_attachFinding (hf : f.saysMalformed = false) (x : NodeId) :
    (s.attachFinding f).markView x = s.markView x := by
  rw [attachFinding]
  rcases f.node? with _ | id
  · rfl
  apply markView_update
  intro n _
  refine ⟨rfl, ?_⟩
  rw [Node.marks, Node.marks, filter_insertFinding, if_neg (by simp [hf])]

/-- A finding about one statement is no mark of another one. -/
theorem markView_attachFinding_of_ne (hx : f.node? ≠ some x) :
    (s.attachFinding f).markView x = s.markView x := by
  rw [attachFinding]
  rcases hnode : f.node? with _ | id
  · rfl
  · have hne : x ≠ id := fun heq => hx (heq ▸ hnode)
    rw [markView, get?_update_of_ne _ _ hne, ← markView]

/-- The first finding about the form of an argument is a mark. -/
theorem markView_attachFinding_malformed {n : Node} (hn : s.get? id = some n)
    (hnone : n.marks.2 = []) :
    (s.attachFinding (malformedFinding id n.element)).markView id =
      some (n.face, n.data, [malformedFinding id n.element]) := by
  have hnew : malformedFinding id n.element ∉ n.findings := by
    intro hmem
    have hfilter : malformedFinding id n.element ∈ n.marks.2 :=
      List.mem_filter.mpr ⟨hmem, by simp [Finding.saysMalformed, malformedFinding]⟩
    rw [hnone] at hfilter
    cases hfilter
  have hmarks : (insertFinding n.findings (malformedFinding id n.element)).filter
      (·.saysMalformed) = [malformedFinding id n.element] := by
    have hold : n.findings.filter (·.saysMalformed) = [] := hnone
    rw [insertFinding, if_neg hnew, List.filter_append, hold]
    rfl
  have hget := get?_update_self s id fun n' => { n' with
    findings := insertFinding n'.findings (malformedFinding id n.element) }
  rw [hn, Option.map_some] at hget
  refine (markView_of_get? hget).trans ?_
  exact congrArg (fun found => some (n.face, n.data, found)) hmarks

/-- Numbering children touches no mark. -/
theorem keepsMark_numberChildren (id : NodeId) :
    Relates (fun s t => ∀ x, KeepsMark s t x) (StoreM.numberChildren id) := by
  have g := KeepsMark.composable
  refine g.bind (g.childrenOf id) fun children => g.forM children fun child _ => ?_
  refine g.bind (g.node child) fun n => .ite (g.bind g.get fun s => ?_) (g.pure _)
  intro s x view hview
  rcases hn : s.get? child with _ | n
  · rw [StoreM.update, bind_apply_of_error (StoreM.node_apply_of_none hn)]
    exact hview
  · rw [StoreM.update_apply hn]
    exact (markView_update (by exact fun _ _ => ⟨rfl, rfl⟩) x).trans hview

end Store

/-! ## Checks -/

namespace BuildM

variable {env : Environment} {state : BuildState} {id : NodeId} {e : Element} {f : Finding}

/-- All statements keep their marks. -/
def KeepsMarks (a b : BuildState) : Prop := ∀ x, KeepsMark a.store b.store x

namespace KeepsMarks

/-- Steps that keep all marks keep them one after another. -/
theorem composable : Composable KeepsMarks where
  refl _ _ _ h := h
  trans h h' x view hview := h' x view (h x view hview)

/-- A step on the store keeps all marks when the statements keep theirs. -/
theorem onStore {α : Type} {m : StoreM α} (h : Relates (fun s t => ∀ x, KeepsMark s t x) m) :
    Relates KeepsMarks (onStore m) := fun state => by
  rw [onStore_apply]
  exact h state.store

/-- A report keeps all marks when it is not about a form. -/
theorem report (hf : f.saysMalformed = false) : Relates KeepsMarks (report env f) := by
  intro state
  rcases hsev : state.log.severityOf f with _ | severity
  · rw [report_apply_of_none hsev]
    exact composable.refl state
  · rw [report_apply_of_some hsev]
    exact fun x _ hview => (markView_attachFinding hf x).trans hview

/-- A report about a statement keeps all marks when it is not about a form. -/
theorem reportOn (id : NodeId) {kind : FindingKind} {message : String}
    (h : (kind, message) ≠ Fault.malformed) : Relates KeepsMarks (reportOn env id kind message) :=
  composable.bind (onStore (KeepsMark.composable.node id)) fun _ => report (decide_eq_false h)

/-- Blaming a statement keeps all marks when it is not for its form. -/
theorem blame (id : NodeId) {fault? : Option Fault}
    (h : ∀ fault, fault? = some fault → fault ≠ Fault.malformed) :
    Relates KeepsMarks (blame env id fault?) := by
  cases fault? with
  | none => exact composable.pure ()
  | some fault => exact reportOn id (h fault rfl)

/-- Checks of core statements keep all marks. -/
theorem blameRelation : BlameRelation env KeepsMarks where
  toComposable := composable
  blame id _ h := blame id fun fault hfault => (h fault hfault).2

/-- Reporting what is missing keeps all marks. -/
theorem reportMissing (id : NodeId) (c : Cardinalities) (e : Element) :
    Relates KeepsMarks (reportMissing env id c e) :=
  composable.forM _ fun _ _ => reportOn id nofun

/-- What is rejected or not foreseen is no extension that lacks the form of its argument. -/
theorem saysMalformed_unexpected (child e : Element) :
    (unexpectedFinding e child).saysMalformed = false := by
  refine decide_eq_false fun heq => ?_
  have hkind := congrArg Prod.fst heq
  rw [unexpectedFinding, unexpectedFault] at hkind
  split at hkind <;> cases hkind

/-- Completing a core statement keeps all marks. -/
theorem completeCore (id : NodeId) (k : Keyword) (c : Cardinalities) (e : Element) :
    Relates KeepsMarks (completeCore env id k c e) := by
  refine composable.bind (blameRelation.checkCoreArgument id k) fun _ => ?_
  refine composable.bind (blameRelation.checkContent id k) fun _ => ?_
  refine composable.bind (composable.forM _ fun child _ => ?_) fun _ => ?_
  · exact report (saysMalformed_unexpected child e)
  · exact onStore (keepsMark_numberChildren id)

end KeepsMarks

/-! ## Complete extensions -/

/-- A check that may turn the marks of one statement into others. -/
structure ChangesMarks (id : NodeId) (m m' : Marks) (a b : BuildState) : Prop where
  notes : RecordsFindings [] a b
  kept : ∀ x, x ≠ id → KeepsMark a.store b.store x
  self : ∀ face, a.store.markView id = some (face, m) → b.store.markView id = some (face, m')

theorem ChangesMarks.trans {m m' m'' : Marks} {a b c : BuildState} (h : ChangesMarks id m m' a b)
    (h' : ChangesMarks id m' m'' b c) : ChangesMarks id m m'' a c where
  notes := h.notes.trans h'.notes
  kept x hx view hview := h'.kept x hx view (h.kept x hx view hview)
  self face hface := h'.self face (h.self face hface)

/-- A step that keeps all marks leaves the marks of a statement as they are. -/
theorem ChangesMarks.of_keepsMarks {a b : BuildState} (h : RecordsFindings [] a b)
    (hkeeps : KeepsMarks a b)
    (m : Marks) : ChangesMarks id m m a b :=
  ⟨h, fun x _ => hkeeps x, fun _ => hkeeps id _⟩

/-- Most checks touch no mark. -/
theorem keepsMarks_of_onlyReports {α : Type} {m : BuildM α} (hstop : env.stopAt = none)
    (hreports : OnlyReports env m state) (hkeeps : Relates KeepsMarks m) :
    Succeeds m state fun _ t => RecordsFindings [] state t ∧ KeepsMarks state t :=
  (onlyReports_recordsFindings hstop hreports).and (hkeeps.yields state)

/-- A check that keeps all marks leaves the marks of each statement as they are. -/
theorem changesMarks_of_onlyReports {α : Type} {m : BuildM α} (id : NodeId)
    (hstop : env.stopAt = none)
    (hreports : OnlyReports env m state) (hkeeps : Relates KeepsMarks m) :
    Succeeds m state fun _ t => ∀ marks, ChangesMarks id marks marks state t :=
  (keepsMarks_of_onlyReports hstop hreports hkeeps).imp fun _ _ h =>
    ChangesMarks.of_keepsMarks h.1 h.2

/-- The check of the form of an argument reports it if it lacks its form. -/
theorem blame_form_changesMarks (hstop : env.stopAt = none)
    (hshown : state.log.policy.suppresses .invalidExtension = false)
    (helement : state.store.elementOf id = some e) (rule : ExtensionRule) {n : Node}
    (hn : n.element = e) :
    Succeeds (blame env id (formFault? rule n)) state fun _ t => ∀ data,
      ChangesMarks id (data, []) (data, if rule.malforms e.argument then
        [malformedFinding id e] else [])
        state t := by
  have hid := contains_of_elementOf helement
  subst hn
  rw [formFault?_eq, Node.argument]
  split
  swap
  · exact Yields.pure fun _ => ChangesMarks.of_keepsMarks (RecordsFindings.refl state)
      (KeepsMarks.composable.refl state) _
  rw [Store.elementOf, Store.faceOf, Option.map_map, Option.map_eq_some_iff] at helement
  obtain ⟨m, hm, hsame⟩ := helement
  have hsubject : m.subject id = .statement id n.element.origin := by
    rw [Node.subject]
    exact congrArg (fun e : Element => Subject.statement id e.origin) hsame
  have hrun : blame env id (some Fault.malformed) state =
      (.ok (), reported state (malformedFinding id n.element)) := by
    rw [blame_some, reportOn, bind_apply, Reading.node_apply hm]
    dsimp only
    rw [hsubject]
    exact report_apply_of_shown hstop hshown
  have hrecords :=
    (onlyReports_recordsFindings hstop (OnlyReports.blame hid (some Fault.malformed))).result hrun
  refine Yields.of_eq hrun fun data => ⟨hrecords, fun x hx view hview => ?_, fun face hface => ?_⟩
  · refine (markView_attachFinding_of_ne fun heq => hx ?_).trans hview
    exact (Option.some.inj heq).symm
  · obtain ⟨_, hm', hface', hmarks⟩ := exists_of_markView hface
    cases hm.symm.trans hm'
    have hview := markView_attachFinding_malformed hm (congrArg Prod.snd hmarks)
    have helement : m.element = n.element := hsame
    have hdata : m.data = data := congrArg Prod.fst hmarks
    rw [hface', helement, hdata] at hview
    exact hview

/-- The check of an extension reports the form of its argument, and no other mark. -/
theorem checkRule_changesMarks (hstop : env.stopAt = none)
    (hshown : state.log.policy.suppresses .invalidExtension = false) (w : state.store.Wired)
    (helement : state.store.elementOf id = some e) (rule : ExtensionRule) :
    Succeeds (checkRule env id rule) state fun _ t => ∀ data,
      ChangesMarks id (data, []) (data, if rule.malforms e.argument then
        [malformedFinding id e] else [])
        state t := by
  have g := @KeepsMarks.blameRelation env
  have hid := contains_of_elementOf helement
  obtain ⟨n, hn⟩ := contains_iff.mp hid
  have hsame : n.element = e := by
    rw [elementOf_of_get? hn] at helement
    exact Option.some.inj helement
  refine Yields.bind_of_eq (Reading.node_apply hn) ?_
  refine Yields.bind (changesMarks_of_onlyReports id hstop (OnlyReports.blame hid _)
    (g.blame id fun _ => Fault.besidesForm_of_policy)) fun _ a ha => ?_
  have hrecords := (ha (Dictionary.empty, [])).notes
  have hlive := (hrecords.parallel.contains id).trans hid
  have helement := (hrecords.parallel.elementOf id).trans helement
  rw [← hrecords.log.policy] at hshown
  refine Yields.bind (blame_form_changesMarks hstop hshown helement rule hsame) fun _ b hb => ?_
  have hrecords' := (hb Dictionary.empty).notes
  have hlive := (hrecords'.parallel.contains id).trans hlive
  have w := (w.of_parallel hrecords.parallel).of_parallel hrecords'.parallel
  refine Yields.bind (changesMarks_of_onlyReports id hstop (OnlyReports.checkParent w hlive rule)
    (g.checkParent id rule)) fun _ c hc => ?_
  have hrecords'' := (hc (Dictionary.empty, [])).notes
  have hlive := (hrecords''.parallel.contains id).trans hlive
  have w := w.of_parallel hrecords''.parallel
  refine (changesMarks_of_onlyReports id hstop (OnlyReports.checkRepetition w hlive rule)
    (g.checkRepetition (fun id => KeepsMarks.blame id ?_) id rule)).imp ?_
  · rintro _ ⟨⟩
    exact Fault.repetition_ne_malformed
  · exact fun _ t ht data => (((ha _).trans (hb data)).trans (hc _)).trans (ht _)

/-- Once an extension is complete, the numbers of a version are kept if its rule asks for it. -/
theorem followUp_changesMarks (hstop : env.stopAt = none) (w : state.store.Wired)
    (helement : state.store.elementOf id = some e) (followUp : FollowUp) :
    Succeeds (BuildM.followUp env id followUp) state fun _ t => ∀ found,
      ChangesMarks id (Dictionary.empty, found)
        (if followUp = .recordVersion then versionData e.argument else Dictionary.empty, found)
        state t := by
  have hid := contains_of_elementOf helement
  have hreports : OnlyReports env (BuildM.followUp env id followUp) state :=
    OnlyReports.followUp w hid followUp
  by_cases hrecord : followUp = .recordVersion
  swap
  · rw [if_neg hrecord]
    exact (changesMarks_of_onlyReports id hstop hreports
      (KeepsMarks.blameRelation.followUp id hrecord)).imp
      fun _ _ h found => h _
  subst hrecord
  obtain ⟨n, hn⟩ := contains_iff.mp hid
  have hrun : BuildM.followUp env id .recordVersion state =
      (.ok (), { state with store := state.store.update id Node.recordVersion }) := by
    rw [BuildM.followUp, BuildM.update, onStore_apply, StoreM.update_apply hn]
  refine Yields.of_eq hrun fun found =>
    ⟨(onlyReports_recordsFindings hstop hreports).result hrun, fun x hx view hview => ?_,
      fun face hface => ?_⟩
  · rw [markView, get?_update_of_ne _ _ hx, ← markView]
    exact hview
  · obtain ⟨m, hm, hface', hmarks⟩ := exists_of_markView hface
    have hget := get?_update_self state.store id Node.recordVersion
    rw [hm, Option.map_some] at hget
    have hsame : m.argument = e.argument := by
      rw [elementOf_of_get? hm] at helement
      rw [Node.argument, Option.some.inj helement]
    have hempty : m.data = Dictionary.empty := congrArg Prod.fst hmarks
    have hfound : m.findings.filter (·.saysMalformed) = found := congrArg Prod.snd hmarks
    refine (markView_of_get? hget).trans ?_
    rw [if_pos rfl, ← hface', ← hsame, ← hfound, Node.recordVersion, versionData]
    rcases versionNumbers? m.argument with _ | numbers
    · rw [Node.marks, hempty]
    · simp only [Node.marks, Node.face, hempty]
      rfl

/-- Completing an extension keeps and reports what its rule asks for, and touches no mark of
another statement. -/
theorem completeExtension_marks (hstop : env.stopAt = none)
    (hshown : state.log.policy.suppresses .invalidExtension = false) (w : state.store.Wired)
    (helement : state.store.elementOf id = some e) (rule : ExtensionRule) :
    Succeeds (completeExtension env id (.ruled rule)) state fun _ t =>
      ChangesMarks id (Dictionary.empty, []) (rule.marks id e) state t := by
  refine Yields.bind (checkRule_changesMarks hstop hshown w helement rule) fun _ a ha => ?_
  have hrecords := (ha Dictionary.empty).notes
  refine (followUp_changesMarks hstop (w.of_parallel hrecords.parallel)
    ((hrecords.parallel.elementOf id).trans helement) rule.followUp).imp fun _ t ht => ?_
  exact (ha Dictionary.empty).trans (ht _)

/-! ## Populating -/

/-- Statements have been added and have the marks that they should have.  All others keep
theirs. -/
structure MarksAdded (a b : BuildState) : Prop where
  ext : Extends a.store b.store
  policy : b.log.policy = a.log.policy
  kept : KeepsMarks a b
  markedRightly : ∀ x, b.store.contains x = true → a.store.contains x = false →
      b.store.MarkedRightly x

namespace MarksAdded

variable {a b c d : BuildState} {child : Element} {r : Resolution} {root : RootId}

/-- A step that keeps all marks and makes no statement adds none with wrong marks. -/
theorem of_recordsFindings (o : a.store.Owned) (h : RecordsFindings [] a b)
    (hkept : KeepsMarks a b) :
    MarksAdded a b where
  ext := Extends.of_parallel o h.parallel
  policy := h.log.policy
  kept := hkept
  markedRightly x hx hnew := by
    rw [h.parallel.contains, hnew] at hx
    cases hx

theorem trans (h : MarksAdded a b) (h' : MarksAdded b c) : MarksAdded a c where
  ext := h.ext.trans h'.ext
  policy := h'.policy.trans h.policy
  kept x view hview := h'.kept x view (h.kept x view hview)
  markedRightly x hx hnew := by
    rcases hold : b.store.contains x with _ | _
    · exact h'.markedRightly x hx hold
    · exact (h.markedRightly x hold hnew).keep hold (h'.kept x)

/-- A statement has got the marks that it should have. -/
theorem markedRightly_self {e : Element} (h : MarksAdded a b)
    (hnew : a.store.markView id = some ((r.key, r.variant, e), Dictionary.empty, []))
    (hchecks : ChangesMarks id (Dictionary.empty, []) (r.variant.marks id e) b c) :
    c.store.MarkedRightly id :=
  markedRightly_of_markView (hchecks.self _ (h.kept id _ hnew))

/-- A new statement has been put below another one, and has been populated and completed. -/
theorem of_child {parent? : Option NodeId} (hlog : b.log = a.log)
    (hmade : Made a.store b.store child r parent? root) (hext : Extends a.store b.store)
    (h : MarksAdded b c) (hchecks : ChangesMarks a.store.fresh (Dictionary.empty, [])
      (r.variant.marks a.store.fresh child) c d) : MarksAdded a d where
  ext := (hext.trans h.ext).trans (Extends.of_parallel h.ext.owned hchecks.notes.parallel)
  policy := hchecks.notes.log.policy.trans (h.policy.trans (by rw [hlog]))
  kept x view hview := by
    have hx : a.store.contains x = true := by
      obtain ⟨n, hn, -⟩ := Option.map_eq_some_iff.mp hview
      exact contains_iff.mpr ⟨n, hn⟩
    have hkept := h.kept x view (hmade.keepsMark x view hview)
    exact hchecks.kept x (ne_fresh_of_contains hx) view hkept
  markedRightly x hx hnew := by
    rw [hchecks.notes.parallel.contains] at hx
    rcases hold : b.store.contains x with _ | _
    · have hne : x ≠ a.store.fresh := (ne_of_contains hmade.blank.contains hold).symm
      exact (h.markedRightly x hx hold).keep hx (hchecks.kept x hne)
    · rw [hmade.eq_fresh hold hnew]
      exact h.markedRightly_self hmade.markView_fresh hchecks

end MarksAdded

/-- A state stays ready for children while statements with the right marks are added. -/
theorem ReadyForChildren.marksAdded {a b : BuildState} (h : ReadyForChildren id a)
    (hab : MarksAdded a b) : ReadyForChildren id b where
  owned := hab.ext.owned
  contains := hab.ext.contains id h.contains
  shown := by rw [hab.policy, h.shown]

/-- A check that touches no mark. -/
theorem marksAdded_of_onlyReports {α : Type} {m : BuildM α} (hstop : env.stopAt = none)
    (h : ReadyForChildren id state) (hreports : OnlyReports env m state)
    (hkeeps : Relates KeepsMarks m) :
    Succeeds m state fun _ t => MarksAdded state t :=
  (keepsMarks_of_onlyReports hstop hreports hkeeps).imp fun _ _ ht =>
    .of_recordsFindings h.owned ht.1 ht.2

/-- Adding statements with the right marks is a relation for getting children. -/
theorem childRelation_marksAdded (hstop : env.stopAt = none) (id : NodeId) :
    ChildRelation env id KeepsMarks MarksAdded where
  refl a ha := .of_recordsFindings ha.owned (RecordsFindings.refl a) (KeepsMarks.composable.refl a)
  trans _ hab hbc := hab.trans hbc
  ready ha hab := ha.marksAdded hab
  check ha hreports hkeeps := marksAdded_of_onlyReports hstop ha hreports hkeeps

/-- A child element becomes a statement with the marks that it should have, given that statements
are populated from it. -/
theorem extractChild_marksAdded (hstop : env.stopAt = none) {child : Element}
    (hpopulate : ∀ (r : Resolution) (c : NodeId) (t : BuildState), ReadyForChildren c t →
      t.store.markView c = some ((r.key, r.variant, child), Dictionary.empty, []) →
        Succeeds (populate env c child r.variant) t fun _ u => ∃ a, MarksAdded t a ∧
          ChangesMarks c (Dictionary.empty, []) (r.variant.marks c child) a u)
    (h : ReadyForChildren id state) :
    Succeeds (Functor.discard (extractChild env id child)) state fun _ t => MarksAdded state t := by
  refine extractChild_makes h (fun f hrejects hlive => ?_) fun r root t _ hlog ht hext hmade => ?_
  · exact marksAdded_of_onlyReports hstop h (OnlyReports.report hlive)
      (KeepsMarks.report (Finding.saysMalformed_of_rejects hrejects))
  · refine (hpopulate r _ t ht hmade.markView_fresh).imp fun _ u ⟨a, ha, hu⟩ => ?_
    exact MarksAdded.of_child hlog hmade hext ha hu

/-- Populating a core statement adds statements with the right marks, when extracting each child
does. -/
theorem populate_core_marksAdded (hstop : env.stopAt = none) {k : Keyword}
    (h : ReadyForChildren id state)
    (hextract : ∀ child ∈ e.children, ∀ t, ReadyForChildren id t →
      Succeeds (Functor.discard (extractChild env id child)) t fun _ u => MarksAdded t u) :
    Succeeds (populate env id e (.core k)) state fun _ t => MarksAdded state t :=
  (childRelation_marksAdded hstop id).populate_core h (fun _ => KeepsMarks.reportOn id nofun)
    (KeepsMarks.reportMissing id _ e) (KeepsMarks.completeCore id k _ e) hextract

/-- Populating an extension turns its marks into those that it should have, in the end. -/
theorem populate_extension_marksAdded (hstop : env.stopAt = none) {supplier : Option Nat}
    {c : ExtensionClass} (h : ReadyForChildren id state)
    (helement : state.store.elementOf id = some e)
    (hextract : ∀ child ∈ e.children, ∀ t, ReadyForChildren id t →
      Succeeds (Functor.discard (extractChild env id child)) t fun _ u => MarksAdded t u) :
    Succeeds (populate env id e (.extension supplier c)) state fun _ t => ∃ a, MarksAdded state a ∧
      ChangesMarks id (Dictionary.empty, []) ((Variant.extension supplier c).marks id e) a t := by
  rw [populate_extension]
  refine Yields.bind ((childRelation_marksAdded hstop id).runSteps h
    (fun _ => KeepsMarks.reportOn id nofun) fun child hstep =>
    hextract child (mem_of_extract_mem_freeSteps hstep)) fun _ a ha => ?_
  have hready := h.marksAdded ha
  cases c with
  | generic => exact Yields.pure ⟨a, ha, .of_keepsMarks (RecordsFindings.refl a)
      (KeepsMarks.composable.refl a) _⟩
  | ruled rule =>
    refine (completeExtension_marks hstop hready.shown hready.owned.wired
      ((ha.ext.elementOf h.contains).trans helement) rule).imp fun _ t ht => ?_
    exact ⟨a, ha, ht⟩

/-- After populating a new statement it has the marks that it should have, and so has every
statement that is made for it. -/
theorem populate_marksAdded (hstop : env.stopAt = none) (e : Element) (r : Resolution) (id : NodeId)
    (state : BuildState) (h : ReadyForChildren id state)
    (hnew : state.store.markView id = some ((r.key, r.variant, e), Dictionary.empty, [])) :
    Succeeds (populate env id e r.variant) state fun _ t => ∃ a, MarksAdded state a ∧
      ChangesMarks id (Dictionary.empty, []) (r.variant.marks id e) a t := by
  have hextract : ∀ child ∈ e.children, ∀ t, ReadyForChildren id t →
      Succeeds (Functor.discard (extractChild env id child)) t fun _ u => MarksAdded t u := by
    intro child hmem t ht
    have := Element.sizeOf_lt_of_mem_children hmem
    exact extractChild_marksAdded hstop (fun r c u hu hnew =>
      populate_marksAdded hstop child r c u hu hnew) ht
  obtain ⟨key, k | ⟨supplier, c⟩⟩ := r
  · refine (populate_core_marksAdded hstop h hextract).imp fun _ t ht => ?_
    exact ⟨t, ht, .of_keepsMarks (RecordsFindings.refl t) (KeepsMarks.composable.refl t) _⟩
  · obtain ⟨n, hn, hface, -⟩ := exists_of_markView hnew
    have helement : n.element = e := congrArg (·.2.2) hface
    exact populate_extension_marksAdded hstop h (helement ▸ elementOf_of_get? hn) hextract
termination_by sizeOf e

end BuildM

/-! ## Labels in the subtree of a new statement -/

/-- The numbers of a version are kept with a label if its argument is a version and all of them fit
into 64 bits, and none of them is kept otherwise.  The form of the argument is reported if it is
not blank and no version, whatever the size of its numbers. -/
structure Node.Labelled (n : Node) (x : NodeId) : Prop where
  kept : ∀ v r c : Nat, n.data.KeepsVersion v r c ↔
    Text.Version n.argument.toList v r c ∧ v < 2 ^ 63 ∧ r < 2 ^ 63 ∧ c < 2 ^ 63
  absent : (¬ ∃ v r c : Nat, Text.Version n.argument.toList v r c ∧
      v < 2 ^ 63 ∧ r < 2 ^ 63 ∧ c < 2 ^ 63) →
    ∀ part ∈ versionParts, n.data.find? part = none
  reported : ∀ f, f ∈ n.findings ∧ f.saysMalformed = true ↔
    f = malformedFinding x n.element ∧ n.argument ≠ "" ∧
      ¬ ∃ v r c, Text.Version n.argument.toList v r c

/-- A statement with the marks of the rule for labels is labelled rightly. -/
theorem Node.labelled_of_marks {n : Node} {x : NodeId}
    (h : n.marks = Catalogue.versionLabel.marks x n.element) : n.Labelled x := by
  have hdata : n.data = versionData n.argument := congrArg Prod.fst h
  have hfound : n.findings.filter (·.saysMalformed) =
      if Catalogue.versionLabel.malforms n.argument then [malformedFinding x n.element] else [] :=
    congrArg Prod.snd h
  refine ⟨fun v r c => ?_, fun hnone part _ => ?_, fun f => ?_⟩
  · rw [hdata, keepsVersion_versionData_iff]
  · rw [hdata, versionData_eq_empty hnone]
    rfl
  · have hmem : f ∈ n.findings ∧ f.saysMalformed = true ↔
        f ∈ n.findings.filter (·.saysMalformed) := List.mem_filter.symm
    have hform : Catalogue.versionLabel.form = some .version := rfl
    rw [hmem, hfound, ← malforms_iff hform, List.mem_ite_nil_right, List.mem_singleton, and_comm]

namespace BuildM

variable {env : Environment} {state : BuildState} {id : NodeId} {e : Element} {s : Store}
  {p : SeverityPolicy} {parent? : Option NodeId} {root : RootId}

/-- Processing a new statement never fails when nothing asks to stop.  The statement stays what it
is, and all statements in its subtree get the marks that they should have. -/
theorem process_marks (hstop : env.stopAt = none)
    (hshown : state.log.policy.suppresses .invalidExtension = false) (o : state.store.Owned)
    (hnew : StoreM.instantiate env.suppliers e parent? root state.store =
      (.ok (.created id), s)) :
    ∃ t, process env id { state with store := s } = (.ok (), t) ∧
      t.store.faceOf id = s.faceOf id ∧ ∀ x, t.store.Below id x → t.store.MarkedRightly x := by
  have os : s.Owned := (StoreM.instantiate_outcome o env.suppliers e parent? root).result hnew
  obtain ⟨rfl, r, -, hmade⟩ := StoreM.made_of_instantiate_eq o hnew
  obtain ⟨_, t, hrun, a, ha, hchecks⟩ := (populate_marksAdded hstop e r _ { state with store := s }
    ⟨os, hmade.blank.contains, hshown⟩ hmade.markView_fresh).exists_result
  have hself := ha.markedRightly_self hmade.markView_fresh hchecks
  refine ⟨t, (process_of_blank hmade.blank).trans hrun, ?_, fun x hx => ?_⟩
  · rw [hchecks.notes.parallel.faceOf, ha.ext.faceOf _ hmade.blank.contains]
  · rw [hchecks.notes.parallel.below_iff] at hx
    obtain rfl | ⟨hlive, hfresh⟩ := ha.ext.new_of_below os.wired hmade.blank.childrenOf hx
    · exact hself
    · have hne : x ≠ state.store.fresh := (ne_of_contains hmade.blank.contains hfresh).symm
      exact (ha.markedRightly x hlive hfresh).keep hlive (hchecks.kept x hne)

/-- Making and processing a statement keeps the findings in the log and those with the statements
together. -/
theorem process_findingsMirrored (h : FindingsMirrored p state)
    (hnew : StoreM.instantiate env.suppliers e parent? root state.store =
      (.ok (.created id), s)) :
    FindingsMirrored p (process env id { state with store := s }).2 := by
  have hkeeps := Store.KeepsFindings.stepwise.instantiate env.suppliers e parent? root state.store
  rw [hnew] at hkeeps
  have hkept : (process (env.stopping env.stopAt) id).Preserves (FindingsMirrored p) :=
    (Uniform.of_invariant env.stopAt env.stopAt (fun _ _ hkeeps h => h.of_keepsFindings hkeeps)
      fun _ _ _ hsev hlive h => h.reported hsev hlive).process id
  exact hkept _ (h.of_keepsFindings hkeeps)

/-- Processing a new statement never fails when nothing asks to stop.  The statement stays what it
is.  Each label in its subtree that the rule for labels looks after keeps what its argument asks
for, and is reported for what is wrong with it.  The log says the same about it, if it agreed with
the statements before. -/
theorem process_labels (hstop : env.stopAt = none)
    (hshown : state.log.policy.suppresses .invalidExtension = false) (o : state.store.Owned)
    (hnew : StoreM.instantiate env.suppliers e parent? root state.store =
      (.ok (.created id), s)) :
    ∃ t, process env id { state with store := s } = (.ok (), t) ∧
      t.store.faceOf id = s.faceOf id ∧ ∀ x n supplier, t.store.Below id x →
        t.store.get? x = some n → n.variant = .extension supplier (.ruled Catalogue.versionLabel) →
          n.Labelled x ∧ ∀ p, FindingsMirrored p state → t.log.forStatement x = n.findings := by
  obtain ⟨t, hrun, hface, hmarked⟩ := process_marks hstop hshown o hnew
  refine ⟨t, hrun, hface, fun x n supplier hx hn hlabel => ⟨Node.labelled_of_marks ?_, ?_⟩⟩
  · rw [hmarked x hx n hn, hlabel]
    rfl
  · intro p hmirrored
    have hlogged := (process_findingsMirrored hmirrored hnew).mirrorsLog x
    rw [hrun] at hlogged
    exact (hlogged n hn).symm

/-- A label with a leading zero in its version and blank ends. -/
def paddedLabel : Element where
  name := "teiv:label"
  value := some " 1.02.3 "
  line := none
  source := none
  children := []
  scope := { home := "m", bindings := Dictionary.ofList [("teiv", Catalogue.topologyModule)] }

/-- The numbers of the label are kept, and nothing is wrong with its form. -/
theorem process_labels_paddedLabel : ∃ s t n,
    StoreM.instantiate Catalogue.suppliers paddedLabel none ⟨0⟩ ({} : Store) =
        (.ok (.created ⟨0⟩), s) ∧
      process { grammar := .standard, suppliers := Catalogue.suppliers } ⟨0⟩ { store := s } =
        (.ok (), t) ∧
      t.store.get? ⟨0⟩ = some n ∧ n.data.KeepsVersion 1 2 3 ∧
      ∀ f ∈ t.log.forStatement ⟨0⟩, f.saysMalformed = false := by
  have hresolve : Catalogue.suppliers.resolveElement paddedLabel =
      .ok ⟨Catalogue.versionLabel.key,
        .extension (some 1) (.ruled Catalogue.versionLabel)⟩ := by rfl
  obtain ⟨s, hs, hmade⟩ := StoreM.instantiate_none_created (s := {}) hresolve ⟨0⟩
  obtain ⟨t, hrun, hface, hlabels⟩ := @process_labels
    { grammar := .standard, suppliers := Catalogue.suppliers } {} ⟨0⟩ paddedLabel s none ⟨0⟩ rfl rfl
    Owned.empty hs
  obtain ⟨n, hn, hview⟩ := Option.map_eq_some_iff.mp (hface.trans hmade.justMade.face)
  obtain ⟨hlabelled, hlogged⟩ := hlabels ⟨0⟩ n (some 1) .self hn (congrArg (·.2.1) hview)
  have hargument : n.argument.toList = "1.02.3".toList :=
    congrArg (fun face => face.2.2.argument.toList) hview
  have hversion : Text.Version n.argument.toList 1 2 3 := by
    rw [hargument]
    refine ⟨['1'], ['0', '2'], ['3'], by decide, ?_, ?_, ?_⟩ <;>
    exact Text.numeral_iff.mpr (by decide)
  have hkept := (hlabelled.kept 1 2 3).mpr ⟨hversion, by decide, by decide, by decide⟩
  refine ⟨s, t, n, hs, hrun, hn, hkept, fun f hf => ?_⟩
  rw [hlogged _ (.empty _)] at hf
  rw [← Bool.not_eq_true]
  intro hmalformed
  exact ((hlabelled.reported f).mp ⟨hf, hmalformed⟩).2.2 ⟨1, 2, 3, hversion⟩

end BuildM
end StatementForest
