import StatementForest.Proofs.Attribute.SchemaAttributes
import StatementForest.Proofs.Document.LexicalScope

/-!
# Keys of core statements

The key of a statement is made of what its element is called.  The name of a keyword gives the core
key of the keyword, and a qualified name gives a key of the module that the qualifier is bound to.
Nothing keeps a document from binding a qualifier to the module of the core language, and then an
extension gets the key of a core statement.

Where no document does so, core keys belong to core statements alone, and what is found by a core
key is what is found by its keyword.

Main results:

- Theorem `Suppliers.denotes_of_resolveElement`: what an element may stand for.
- Theorem `Store.Keyed.populate`: every statement that is made for a document has the key that its
  element stands for, by recursion on the element.
- Theorem `Sound.exists_descend`: statements view elements of the documents.
- Theorem `DocumentSpec.SparesCore.reserves`: the ways to bind a qualifier to the core language.
- Theorem `Schema.keys_of_build`: which statements of a schema have core keys.
- Theorem `Schema.borrowedKey_of_build`: an extension may have one.
-/

namespace StatementForest

open Store

/-! ## What an element stands for -/

namespace Element

/-- What an element may stand for: the statement of a keyword, or something that the module of its
qualifier defines. -/
inductive Denotes (e : Element) : Key → Variant → Prop where
  | keyword {k : Keyword} (hsplit : e.splitName = (none, k.text)) :
      Denotes e (Key.ofKeyword k) (.core k)
  | bound {qualifier name module : String} {supplier : Option Nat} {c : ExtensionClass}
      (hsplit : e.splitName = (some qualifier, name))
      (hmodule : e.scope.module? qualifier = some module) :
      Denotes e ⟨module, name⟩ (.extension supplier c)

/-- The qualifier of an element stands for the module of the core language. -/
def BorrowsCore (e : Element) : Prop :=
  ∃ qualifier name, e.splitName = (some qualifier, name) ∧
    e.scope.module? qualifier = some Key.coreModule

namespace Denotes

variable {e : Element} {key : Key} {v : Variant}

/-- A key belongs to the core language for a keyword, or when the qualifier borrows that module. -/
theorem isCore_iff (h : e.Denotes key v) :
    key.isCore = true ↔ (∃ k, v = .core k) ∨ e.BorrowsCore := by
  cases h with
  | @keyword k hsplit => exact ⟨fun _ => .inl ⟨k, rfl⟩, fun _ => Key.isCore_core k.text⟩
  | @bound qualifier name module _ _ hsplit hmodule =>
    rw [Key.isCore, beq_iff_eq]
    constructor
    · rintro rfl
      exact .inr ⟨qualifier, name, hsplit, hmodule⟩
    · rintro (⟨_, ⟨⟩⟩ | ⟨qualifier', name', hsplit', hmodule'⟩)
      cases hsplit.symm.trans hsplit'
      exact Option.some.inj (hmodule.symm.trans hmodule')

/-- The key of a keyword belongs to its statements, unless a qualifier stands for the core
language. -/
theorem eq_ofKeyword_iff (h : e.Denotes key v) (hown : ¬ e.BorrowsCore) (k : Keyword) :
    key = Key.ofKeyword k ↔ v = .core k := by
  have hcore := h.isCore_iff
  cases h with
  | @keyword k' hsplit =>
    constructor
    · intro hkey
      have htext : Keyword.ofText? k'.text = Keyword.ofText? k.text :=
        congrArg (Keyword.ofText? ∘ Key.name) hkey
      rw [Keyword.ofText?_text, Keyword.ofText?_text] at htext
      rw [Option.some.inj htext]
    · rintro ⟨⟩
      rfl
  | bound hsplit hmodule =>
    refine ⟨fun hkey => ?_, fun hv => by cases hv⟩
    obtain ⟨_, ⟨⟩⟩ | hborrows := hcore.mp (hkey ▸ Key.isCore_core k.text)
    exact absurd hborrows hown

end Denotes
end Element

/-- What suppliers make of an element is something that it stands for. -/
theorem Suppliers.denotes_of_resolveElement {s : Suppliers} {e : Element} {r : Resolution}
    (h : s.resolveElement e = .ok r) : e.Denotes r.key r.variant := by
  rw [resolveElement] at h
  rcases hsplit : e.splitName with ⟨_ | qualifier, name⟩ <;> simp only [hsplit] at h
  · rcases hk : Keyword.ofText? name with _ | k <;> simp only [hk] at h
    · cases h
    · obtain rfl := Keyword.ofText?_eq_some_iff.mp hk
      cases h
      exact .keyword hsplit
  · rcases hmodule : e.scope.module? qualifier with _ | module <;> simp only [hmodule] at h
    · cases h
    · rcases hc : s.resolve? ⟨module, name⟩ with _ | ⟨index, c⟩ <;> simp only [hc] at h <;>
      · cases h
        exact .bound hsplit hmodule

/-! ## Keyed stores -/

/-- Every live statement has a key and a variant that its element stands for. -/
def Store.Keyed (s : Store) : Prop :=
  ∀ x key v e, s.faceOf x = some (key, v, e) → e.Denotes key v

namespace Store.Keyed

variable {s t : Store} {env : Environment} {state : BuildState} {id : NodeId}

/-- The element of a live statement may stand for its key and variant. -/
theorem denotes (h : s.Keyed) {x : NodeId} {n : Node} (hn : s.get? x = some n) :
    n.element.Denotes n.key n.variant :=
  h x _ _ _ (by rw [faceOf, hn]; rfl)

/-- There is nothing wrong in a store without statements. -/
theorem of_get?_eq_none (h : ∀ x, s.get? x = none) : s.Keyed := by
  intro x key v e hx
  rw [faceOf, h x] at hx
  cases hx

/-- Keys and variants are the same in a store with the same links. -/
theorem of_parallel (h : s.Keyed) (hst : Parallel s t) : t.Keyed := fun x key v e hx =>
  h x key v e ((hst.faceOf x).symm.trans hx)

/-- A new statement has the key and the variant that its element resolves to. -/
theorem alloc (h : s.Keyed) {suppliers : Suppliers} {e : Element} {r : Resolution}
    (hr : suppliers.resolveElement e = .ok r) (root : RootId) :
    (s.alloc (StoreM.freshNode e r root)).2.Keyed := by
  intro x key v e' hx
  by_cases hfresh : x = s.fresh
  · rw [hfresh, faceOf, get?_alloc_fresh] at hx
    cases hx
    exact Suppliers.denotes_of_resolveElement hr
  · rw [faceOf, get?_alloc_of_ne _ _ hfresh] at hx
    exact h x key v e' hx

/-- Merging keeps keys and variants. -/
theorem absorb (h : s.Keyed) (h' : t.Keyed) : (s.absorb t).Keyed := by
  intro x key v e hx
  obtain hlt | ⟨y, rfl⟩ := x.lt_or_shift s.slots.size
  · rw [faceOf_absorb_left hlt] at hx
    exact h x key v e hx
  · rw [faceOf_absorb_right] at hx
    exact h' y key v e hx

/-! ### Populating -/

/-- A step that only reports keeps keys and variants. -/
theorem of_onlyReports {α : Type} {m : BuildM α} (h : state.store.Keyed) (o : state.store.Owned)
    (hm : OnlyReports env m state) : ExtendsStore env m state fun _ s => s.Keyed :=
  hm.imp fun _ _ ht => ⟨Extends.of_parallel o ht.1, h.of_parallel ht.1⟩

/-- A finding about a live statement keeps a store keyed. -/
theorem reportOn (h : state.store.Keyed) (o : state.store.Owned)
    (hid : state.store.contains id = true) (kind : FindingKind) (message : String) :
    ExtendsStore env (BuildM.reportOn env id kind message) state fun _ s => s.Keyed :=
  h.of_onlyReports o (OnlyReports.reportOn hid kind message)

/-- A child element becomes a statement with the key that it stands for. -/
theorem extractChild_of_populate {e : Element} {parent : NodeId}
    (hpopulate : ∀ (id : NodeId) (v : Variant) (t : BuildState), t.store.Keyed → t.store.Owned →
      t.store.contains id = true →
        ExtendsStore env (BuildM.populate env id e v) t fun _ s => s.Keyed)
    (h : state.store.Keyed) (o : state.store.Owned)
    (hparent : state.store.contains parent = true) :
    ExtendsStore env (BuildM.extractChild env parent e) state fun _ s => s.Keyed := by
  refine ExtendsStore.extractChild (A := Keyed) o hparent ?_ ?_ ?_
  · exact fun f hf => h.of_onlyReports o (OnlyReports.report fun x hx => by rw [hf] at hx; cases hx)
  · intro r root hr
    refine (StoreM.instantiate_some_succeeds o hparent hr).imp ?_
    rintro _ t ⟨-, -, ht, -⟩
    exact fun x key v e' hx => h.alloc hr root x key v e' ((ht.faceOf x).symm.trans hx)
  · exact fun n t ht hk hn => hpopulate _ n.variant t hk ht.owned (contains_iff.mpr ⟨n, hn⟩)

/-- Populating a live statement keeps a store keyed. -/
theorem populate (e : Element) (id : NodeId) (v : Variant) (state : BuildState)
    (h : state.store.Keyed) (o : state.store.Owned) (hid : state.store.contains id = true) :
    ExtendsStore env (BuildM.populate env id e v) state fun _ s => s.Keyed := by
  have hchild : ∀ child ∈ e.children, ∀ t : BuildState, Extends state.store t.store →
      t.store.Keyed →
        ExtendsStore env (Functor.discard (BuildM.extractChild env id child)) t
          fun _ s => s.Keyed := by
    intro child hmem t ht hk
    have := Element.sizeOf_lt_of_mem_children hmem
    exact Yields.discard (P := fun u : BuildState => Extends t.store u.store ∧ u.store.Keyed)
      (extractChild_of_populate (fun c w u => populate child c w u) hk ht.owned
        (ht.contains id hid))
  cases v with
  | core k =>
    rw [BuildM.populate_core]
    refine ExtendsStore.bind (ExtendsStore.runSteps o hid h _ (fun child hstep =>
      hchild child (mem_of_extract_mem_grammarSteps hstep))
      fun u _ _ hu hk => hk.reportOn hu.owned (hu.contains id hid) _ _) fun _ t ht hk => ?_
    have hlive := ht.contains id hid
    refine ExtendsStore.bind (hk.of_onlyReports ht.owned (OnlyReports.reportMissing hlive _ e))
      fun _ u hu hk => ?_
    have hlive := hu.contains id hlive
    refine ExtendsStore.bind (ExtendsStore.runSteps hu.owned hlive hk _ (fun child hstep v hv =>
      hchild child (mem_of_extract_mem_extensionSteps hstep) v (ht.trans (hu.trans hv)))
      fun v _ _ hv hk => hk.reportOn hv.owned (hv.contains id hlive) _ _) fun _ v hv hk => ?_
    exact hk.of_onlyReports hv.owned (OnlyReports.completeCore hv.owned.wired
      (hv.contains id hlive) k _ e)
  | extension supplier c =>
    rw [BuildM.populate_extension]
    refine ExtendsStore.bind (ExtendsStore.runSteps o hid h _ (fun child hstep =>
      hchild child (mem_of_extract_mem_freeSteps hstep))
      fun u _ _ hu hk => hk.reportOn hu.owned (hu.contains id hid) _ _) fun _ t ht hk => ?_
    exact hk.of_onlyReports ht.owned (OnlyReports.completeExtension ht.owned.wired
      (ht.contains id hid) c)
termination_by sizeOf e

/-- Processing a statement keeps keys and variants. -/
theorem process (h : state.store.Keyed) (o : state.store.Owned)
    (hid : state.store.contains id = true) :
    ExtendsStore env (BuildM.process env id) state fun _ s => s.Keyed := by
  obtain ⟨n, hn⟩ := contains_iff.mp hid
  exact ExtendsStore.bind_of_eq (Reading.node_apply hn)
    (populate n.element id n.variant state h o hid)

end Store.Keyed

/-! ## Documents -/

namespace SchemaDocument

variable {env : Environment}

/-- A document is built into a keyed store. -/
theorem populate_keyed (d : SchemaDocument) (log : FindingLog) :
    Yields (fun e _ => Stops env e) (populate env d) { log } fun _ t => t.store.Keyed := by
  have hstart : BuildM.onStore (modifyGet (·.addTree d.source d.conformance)) { log } =
      (.ok ⟨0⟩, { store := d.sprout, log }) := rfl
  have hsprout : d.sprout.Keyed := .of_get?_eq_none d.get?_sprout
  have hreport : ∀ f, Yields (fun e _ => Stops env e) (BuildM.report env f)
      { store := d.sprout, log } fun _ t => t.store.Keyed := fun f =>
    (OnlyReports.report_outcome f).imp fun _ _ ht => hsprout.of_parallel ht.1
  apply Yields.bind_of_eq hstart
  by_cases hmodel : d.isModel = true
  · rw [if_pos hmodel]
    rcases hr : env.suppliers.resolveElement d.element with finding | r
    · refine Yields.bind_of_eq (a := .rejected finding) ?_ (hreport finding)
      rw [onStore_apply, StoreM.instantiate_of_error hr]
    · refine Yields.bind_of_eq (a := .created d.sprout.fresh) (t :=
        { store := (d.sprout.alloc (StoreM.freshNode d.element r ⟨0⟩)).2, log }) ?_ ?_
      · rw [onStore_apply, StoreM.instantiate_none_apply hr]
      have hkeyed := hsprout.alloc hr ⟨0⟩
      have htree : (d.sprout.alloc (StoreM.freshNode d.element r ⟨0⟩)).2.tree? ⟨0⟩ =
          some { source := d.source, conformance := d.conformance } := tree?_sprout d 0
      have hplant : Succeeds (StoreM.setTop ⟨0⟩ d.sprout.fresh)
          (d.sprout.alloc (StoreM.freshNode d.element r ⟨0⟩)).2 fun _ t => t.Keyed :=
        Yields.of_eq (StoreM.updateTree_apply htree _) hkeyed
      refine Yields.bind (Yields.onStore (Yields.of_succeeds ((plant_succeeds d).and hplant))) ?_
      intro _ t ⟨⟨⟨hstand, hlive⟩, hk⟩, _⟩
      exact (hk.process hstand.owned hlive).imp fun _ _ ht => ht.2
  · rw [if_neg hmodel]
    exact hreport d.noModel

/-- The statements of a document have the keys and variants of their elements. -/
theorem built_keyed (hstop : env.stopAt = none) (policy : SeverityPolicy) (d : SchemaDocument) :
    (d.built env policy).store.Keyed := by
  have hkeyed : Yields (fun e _ => Stops env e) (populate env d)
      { log := FindingLog.empty policy } fun _ t => t.store.Keyed := d.populate_keyed _
  unfold Yields at hkeyed
  rw [built]
  rcases hrun : populate env d { log := FindingLog.empty policy } with ⟨e | _, t⟩ <;>
    rw [hrun] at hkeyed
  · obtain ⟨hsome, -⟩ := hkeyed
    rw [hstop] at hsome
    cases hsome
  · exact hkeyed

/-- No qualifier in a document stands for the module of the core language. -/
def Reserves (d : SchemaDocument) : Prop :=
  ∀ path e qualifier, d.element.descend? path = some e →
    e.scope.module? qualifier ≠ some Key.coreModule

/-- No element of such a document borrows the core language. -/
theorem Reserves.not_borrowsCore {d : SchemaDocument} (h : d.Reserves) {path : List Nat}
    {e : Element} (he : d.element.descend? path = some e) : ¬ e.BorrowsCore := by
  rintro ⟨qualifier, _, -, hmodule⟩
  exact h path e qualifier he hmodule

end SchemaDocument

/-- The statements of several documents have the keys and variants of their elements. -/
theorem Schema.gather_keyed {env : Environment} (hstop : env.stopAt = none)
    (policy : SeverityPolicy) {state : BuildState} (h : state.store.Keyed)
    (documents : List SchemaDocument) :
    (gather env policy state documents).store.Keyed := by
  induction documents generalizing state with
  | nil => exact h
  | cons d rest ih => exact ih (h.absorb (d.built_keyed hstop policy))

/-- Statements view elements of the documents. -/
theorem Sound.exists_descend {suppliers : Suppliers} {documents : List SchemaDocument}
    {state : BuildState} (h : Sound suppliers documents state) {x : NodeId} {n : Node}
    (hn : state.store.get? x = some n) :
    ∃ d ∈ documents, ∃ path, d.element.descend? path = some n.element := by
  obtain ⟨⟨i⟩, top, htop, hbelow⟩ := h.treesOf.exists_top (contains_iff.mpr ⟨n, hn⟩)
  induction hbelow generalizing n with
  | self =>
    have helement := h.treesOf.element_top i _ htop
    rw [elementOf_of_get? hn, eq_comm, Option.map_eq_some_iff] at helement
    obtain ⟨d, hd, helement⟩ := helement
    exact ⟨d, List.mem_of_getElem? hd, [], congrArg some helement⟩
  | @under x p hp _ ih =>
    obtain ⟨m, hm⟩ := contains_iff.mp (h.treesOf.owned.wired.contains_parent hp)
    obtain ⟨d, hd, path, hpath⟩ := ih hm
    have hmem := h.treesOf.owned.wired.mem_of_parentOf hp
    rw [childrenOf_of_get? hm] at hmem
    obtain ⟨child, hchild, helement⟩ := h.faithful.children p m hm x hmem
    rw [elementOf_of_get? hn] at helement
    cases helement
    obtain ⟨i, hi⟩ := List.getElem?_of_mem hchild
    refine ⟨d, hd, path ++ [i], ?_⟩
    rw [Element.descend?_append, hpath, Option.bind_some, Element.descend?, hi]
    rfl

/-! ## Documents that reserve the core language -/

namespace DocumentSpec

variable {spec : DocumentSpec}

/-- Only what is written in a document, and the module of its own names, is bound in it. -/
theorem mem_of_visible? {around : List ElementSpec} {qualifier module : String}
    (h : spec.visible? around qualifier = some module) :
    (∃ e ∈ around, e.bindings.find? qualifier = some module) ∨
      spec.bindings.find? qualifier = some module ∨
      (∃ e ∈ spec.root.children, e.name = "import" ∧ e.value = some module) ∨
      module = spec.effectiveHome := by
  rw [visible?, Option.or_eq_some_iff, List.findSome?_eq_some_iff] at h
  obtain ⟨_, e, _, rfl, he, -⟩ | ⟨-, h⟩ := h
  · exact .inl ⟨e, by simp, he⟩
  rw [Option.or_eq_some_iff] at h
  obtain h | ⟨-, h⟩ := h
  · exact .inr (.inl h)
  rw [declared?, Option.or_eq_some_iff] at h
  obtain h | ⟨-, h⟩ := h
  · obtain ⟨e, hmem, he⟩ := List.exists_of_findSome?_eq_some h
    rw [ElementSpec.imported?] at he
    split at he
    · next himport => exact .inr (.inr (.inl ⟨e, List.mem_reverse.mp hmem, himport.1, he⟩))
    · cases he
  · refine .inr (.inr (.inr ?_))
    rw [Option.or_eq_some_iff] at h
    obtain h | ⟨-, h⟩ := h <;>
    · split at h
      · exact (Option.some.inj h).symm
      · cases h

/-- A document binds no qualifier to the core language when the module of its own names, its
imports, the bindings beside it and those of its elements do not name the core language. -/
structure SparesCore (spec : DocumentSpec) : Prop where
  home : spec.effectiveHome ≠ Key.coreModule
  imports : ∀ e ∈ spec.root.children, e.name = "import" → e.value ≠ some Key.coreModule
  bindings : ∀ qualifier, spec.bindings.find? qualifier ≠ some Key.coreModule
  elements : ∀ path p, Place.descend? ⟨spec.root, []⟩ path = some p → ∀ e ∈ p.within,
    ∀ qualifier, e.bindings.find? qualifier ≠ some Key.coreModule

/-- A document whose bindings spare the core language reserves it. -/
theorem SparesCore.reserves (h : spec.SparesCore) {d : SchemaDocument}
    (hd : d.element = spec.toElement) : d.Reserves := by
  intro path e qualifier he hmodule
  have hdescend := spec.translates_toElement.descend path
  rw [← hd, he] at hdescend
  rcases hp : Place.descend? ⟨spec.root, []⟩ path with _ | p <;> rw [hp] at hdescend
  · cases hdescend
  obtain ⟨htranslates⟩ := hdescend
  rw [htranslates.renders.module?] at hmodule
  obtain ⟨e', he', hbound⟩ | hbound | ⟨e', he', hname, hvalue⟩ | hhome := mem_of_visible? hmodule
  · exact h.elements path p hp e' he' qualifier hbound
  · exact h.bindings qualifier hbound
  · exact h.imports e' he' hname hvalue
  · exact h.home hhome.symm

end DocumentSpec

/-! ## Keys in a schema -/

/-- Core keys belong to core statements, and what is found by a core key is what is found by its
keyword. -/
structure Store.KeysApart (s : Store) : Prop where
  isCore_iff : ∀ x n, s.get? x = some n → (n.key.isCore = true ↔ n.isExtension = false)
  eq_ofKeyword_iff : ∀ x n k, s.get? x = some n →
    (n.key = Key.ofKeyword k ↔ n.isKeyword k = true)
  childrenWithKey : ∀ x k, s.childrenWithKey x (Key.ofKeyword k) = s.childrenOfKeyword x k

/-- A statement is no extension when it is of a keyword. -/
theorem Node.isExtension_eq_false_iff {n : Node} :
    n.isExtension = false ↔ ∃ k, n.variant = .core k := by
  rw [isExtension, keyword?]
  rcases n.variant with k | ⟨supplier, c⟩ <;> simp

/-- Keys tell core statements from extensions where no element borrows the core language. -/
theorem Store.Keyed.keysApart {s : Store} (h : s.Keyed)
    (hown : ∀ x n, s.get? x = some n → ¬ n.element.BorrowsCore) : s.KeysApart := by
  have hkeyword : ∀ x n k, s.get? x = some n →
      (n.key = Key.ofKeyword k ↔ n.isKeyword k = true) := by
    intro x n k hn
    rw [Node.isKeyword_iff]
    exact (h.denotes hn).eq_ofKeyword_iff (hown x n hn) k
  refine ⟨fun x n hn => ?_, hkeyword, fun x k => ?_⟩
  · rw [(h.denotes hn).isCore_iff, Node.isExtension_eq_false_iff, or_iff_left (hown x n hn)]
  · refine List.filter_congr fun c _ => ?_
    rcases hc : s.get? c with _ | m
    · rfl
    · rw [Option.any_some, Option.any_some, Bool.eq_iff_iff, beq_iff_eq]
      exact hkeyword c m k hc

namespace Schema

variable {c : Configuration} {grammar : Grammar} {suppliers : Suppliers}
  {documents : List SchemaDocument} {schema : Schema}

/-- The statements of a schema have keys that their elements stand for, and view elements of the
documents. -/
theorem keyed_of_build (hbuild : build c grammar suppliers documents = .ok schema) :
    schema.store.Keyed ∧ ∀ x n, schema.store.get? x = some n →
      ∃ d ∈ documents, ∃ path, d.element.descend? path = some n.element := by
  obtain ⟨merged, hmerged, -, hsound, -, ⟨stages⟩⟩ := exists_stages hbuild
  have hstop : ({ grammar, suppliers } : Environment).stopAt = none := rfl
  have hkeyed : merged.store.Keyed := by
    rw [hmerged]
    exact gather_keyed hstop c.policy (.of_get?_eq_none fun _ => rfl) documents
  constructor
  · intro x key v e hx
    rw [faceOf, Option.map_eq_some_iff] at hx
    obtain ⟨n, hn, hnface⟩ := hx
    obtain ⟨m, hm, hsame⟩ := stages.exists_merged hn
    refine hkeyed x key v e ?_
    rw [faceOf, hm, ← hnface, hsame]
    rfl
  · intro x n hn
    obtain ⟨m, hm, hsame⟩ := stages.exists_merged hn
    rw [Node.element_of_face hsame]
    exact hsound.exists_descend hm

/-- A statement has a core key when it is a core statement, or an extension whose qualifier stands
for the core language.  When no document binds a qualifier to the core language, core keys belong
to core statements alone. -/
theorem keys_of_build (hbuild : build c grammar suppliers documents = .ok schema) :
    (∀ x n, schema.store.get? x = some n →
      (n.key.isCore = true ↔ n.isExtension = false ∨ n.element.BorrowsCore)) ∧
    ((∀ d ∈ documents, d.Reserves) → schema.store.KeysApart) := by
  obtain ⟨hkeyed, hdescend⟩ := keyed_of_build hbuild
  constructor
  · intro x n hn
    rw [(hkeyed.denotes hn).isCore_iff, Node.isExtension_eq_false_iff]
  · intro hreserves
    refine hkeyed.keysApart fun x n hn => ?_
    obtain ⟨d, hd, path, hpath⟩ := hdescend x n hn
    exact (hreserves d hd).not_borrowsCore hpath

/-- An extension that a grammar keeps below the statement of a model has a core key when its
qualifier stands for the core language. -/
theorem borrowedKey_of_build (hproper : grammar.Proper) (hprunes : c.prunes = false)
    (hbuild : build c grammar suppliers documents = .ok schema) {i : Nat} {d : SchemaDocument}
    (hd : documents[i]? = some d) {k : Keyword} (hk : d.element.name = k.text)
    (hmodel : d.isModel = true) {e : Element}
    (he : e ∈ (grammar.below k).kept d.element.children) {qualifier name : String}
    (hsplit : e.splitName = (some qualifier, name))
    (hmodule : e.scope.module? qualifier = some Key.coreModule) :
    ∃ top x n, schema.store.topOf ⟨i⟩ = some top ∧ x ∈ schema.store.childrenOf top ∧
      schema.store.get? x = some n ∧ n.element = e ∧ n.key = Key.core name ∧
      n.isExtension = true := by
  obtain ⟨top, n, htop, hn, helement⟩ := exists_top_of_build hproper hbuild hd hmodel
  have hcore := (isKeyword_iff_of_build hprunes hbuild hn k).mpr (helement ▸ hk)
  obtain ⟨merged, -, hobeys, ⟨stages⟩⟩ := exists_obeysGrammar hproper hbuild
  have halike := stages.alike hprunes
  obtain ⟨n', hn', hface⟩ := halike.exists_get?_left hn
  rw [Node.isKeyword_of_face hface, Node.isKeyword_iff] at hcore
  have helement' : n'.element = d.element := (Node.element_of_face hface).symm.trans helement
  obtain ⟨x, m', hx, hm', rfl⟩ := hobeys.exists_view hn' (by rw [hcore, helement']; exact he)
  obtain ⟨m, hm, hface'⟩ := halike.exists_get? hm'
  have hsame := Node.element_of_face hface'
  rw [← childrenOf_of_get? hn'] at hx
  have hchild : x ∈ schema.store.childrenOf top := (halike.childrenOf top).symm ▸ hx
  have hdenotes := (keyed_of_build hbuild).1.denotes hm
  rw [hsame] at hdenotes
  obtain ⟨hkey, hextension⟩ : m.key = Key.core name ∧ m.isExtension = true := by
    rw [Node.isExtension, Node.keyword?]
    generalize m.key = key, m.variant = v at hdenotes
    cases hdenotes with
    | keyword hsplit' => cases hsplit.symm.trans hsplit'
    | bound hsplit' hmodule' =>
      cases hsplit.symm.trans hsplit'
      cases hmodule.symm.trans hmodule'
      exact ⟨rfl, rfl⟩
  exact ⟨top, x, m, htop, hchild, hm, hsame, hkey, hextension⟩

/-- The specification of a module with a container and an extension of that name, whose qualifier
is bound beside the document. -/
def containersSpec (module : String) : DocumentSpec where
  bindings := Dictionary.ofList [("y", module)]
  root := {
    name := "module", value := some "m"
    children := [
      { name := "namespace", value := some "urn:m" }, { name := "prefix", value := some "m" },
      { name := "container", value := some "c" }, { name := "y:container", value := some "d" }] }

/-- The bindings to the vendor's module spare the core language. -/
theorem sparesCore_containersSpec : (containersSpec "vendor").SparesCore where
  home := by decide
  imports := by decide
  bindings qualifier hbound := by
    have hmem := Dictionary.mem_of_find?_ofList hbound
    rw [List.mem_singleton, Prod.mk.injEq] at hmem
    exact absurd hmem.2 (by decide)
  elements := by
    have hroot : (containersSpec "vendor").root.bindings = Dictionary.empty := rfl
    have hleaf : ∀ e ∈ (containersSpec "vendor").root.children,
        e.bindings = Dictionary.empty ∧ e.children.length = 0 := by decide
    intro path p hp e he qualifier hbound
    have hempty : e.bindings = Dictionary.empty := by
      rcases path with _ | ⟨i, path⟩
      · cases hp
        rw [List.mem_singleton.mp he, hroot]
      rw [Place.descend?, Option.bind_eq_some_iff] at hp
      obtain ⟨p', hp', hp⟩ := hp
      obtain ⟨child, hchild, rfl⟩ := Option.map_eq_some_iff.mp hp'
      obtain ⟨hbindings, hnone⟩ := hleaf child (List.mem_of_getElem? hchild)
      rcases path with _ | ⟨j, path⟩
      · cases hp
        obtain rfl | he := List.mem_cons.mp he
        · exact hbindings
        · rw [List.mem_singleton.mp he, hroot]
      · -- nothing is written below the children
        rw [Place.descend?, Place.child?, List.length_eq_zero_iff.mp hnone] at hp
        cases hp
    rw [hempty] at hbound
    cases hbound

/-- The keys of the module with two containers tell the core statement from the extension. -/
theorem keys_of_build_containersSpec : ∃ schema,
    build Configuration.template Grammar.standard {} [.ofSpec (containersSpec "vendor")] =
        .ok schema ∧
      (∀ x n, schema.store.get? x = some n →
        (n.key.isCore = true ↔ n.isExtension = false ∨ n.element.BorrowsCore)) ∧
      (∀ d ∈ [SchemaDocument.ofSpec (containersSpec "vendor")], d.Reserves) ∧
      schema.store.KeysApart := by
  have hvalid : Configuration.template.validate = .ok () := by rfl
  obtain ⟨_, _, hnever⟩ | ⟨schema, hbuild, -⟩ := treesOf_of_valid hvalid Grammar.standard {}
    [.ofSpec (containersSpec "vendor")]
  · cases hnever
  have hreserves : ∀ d ∈ [SchemaDocument.ofSpec (containersSpec "vendor")], d.Reserves := by
    intro d hd
    rw [List.mem_singleton.mp hd]
    exact sparesCore_containersSpec.reserves rfl
  exact ⟨schema, hbuild, (keys_of_build hbuild).1, hreserves, (keys_of_build hbuild).2 hreserves⟩

/-- An extension has the key of a container, and is found among the containers of its parent by
this key but not by the keyword. -/
theorem borrowedKey_of_build_containersSpec : ∃ schema top x n,
    build Configuration.template Grammar.standard {} [.ofSpec (containersSpec Key.coreModule)] =
        .ok schema ∧
      schema.store.topOf ⟨0⟩ = some top ∧ schema.store.get? x = some n ∧
      n.isExtension = true ∧ n.key.isCore = true ∧ n.key = Key.ofKeyword .container ∧
      x ∈ schema.store.childrenWithKey top (Key.ofKeyword .container) ∧
      x ∉ schema.store.childrenOfKeyword top .container := by
  have hvalid : Configuration.template.validate = .ok () := by rfl
  obtain ⟨_, _, hnever⟩ | ⟨schema, hbuild, -⟩ := treesOf_of_valid hvalid Grammar.standard {}
    [.ofSpec (containersSpec Key.coreModule)]
  · cases hnever
  obtain ⟨e, he, hname⟩ : ∃ e ∈ (Grammar.standard.below .module).kept
      (SchemaDocument.ofSpec (containersSpec Key.coreModule)).element.children,
      e.splitName = (some "y", "container") ∧ e.scope.module? "y" = some Key.coreModule := by
    decide
  obtain ⟨top, x, n, htop, hchild, hn, -, hkey, hextension⟩ :=
    borrowedKey_of_build Grammar.proper_standard rfl hbuild (i := 0) rfl (k := .module) rfl rfl he
      hname.1 hname.2
  refine ⟨schema, top, x, n, hbuild, htop, hn, hextension, ?_, hkey, ?_, ?_⟩
  · rw [hkey]
    exact Key.isCore_core _
  · refine List.mem_filter.mpr ⟨hchild, ?_⟩
    rw [hn, Option.any_some, beq_iff_eq]
    exact hkey
  · intro hmem
    have hkeyword := (List.mem_filter.mp hmem).2
    rw [hn, Option.any_some, Node.isKeyword, beq_iff_eq] at hkeyword
    rw [Node.isExtension, hkeyword] at hextension
    cases hextension

end Schema
end StatementForest
