import StatementForest.Proofs.Schema.DefinitionCollection
import StatementForest.Proofs.Attribute.InheritedValues
import StatementForest.Proofs.Schema.LinkingEffect

/-!
# Documents that do not get in each other's way

Trees are told apart by the names of their tops, and definitions by their module and their
name.  When different documents have different names and define different features and
identities, so do the trees that are built for them.

Main results:

- Theorem `Sound.named`: trees of documents with different names have different names.
- Theorem `Sound.apart`: they define different features and identities when the documents
  do.
- Theorem `Store.Apart.of_thinned`: this stays so when statements are taken out.
-/

namespace StatementForest

open Store

/-! ## Documents -/

namespace SchemaDocument

/-- The keys of what a document defines with a keyword. -/
def defined (k : Keyword) (d : SchemaDocument) : List Key :=
  if d.isModel then
    (d.element.children.filter (·.name == k.text)).map fun e => ⟨e.scope.home, e.argument⟩
  else []

/-- Two documents have different names, unless one is a module and the other a submodule,
and they define different features and identities. -/
structure Apart (d e : SchemaDocument) : Prop where
  name : d.isModel = true → e.isModel = true → d.element.name = e.element.name →
    d.element.argument ≠ e.element.argument
  features : ∀ key ∈ d.defined .feature, key ∉ e.defined .feature
  identities : ∀ key ∈ d.defined .identity, key ∉ e.defined .identity

instance (d e : SchemaDocument) : Decidable (d.Apart e) :=
  decidable_of_iff ((d.isModel = true → e.isModel = true → d.element.name = e.element.name →
      d.element.argument ≠ e.element.argument) ∧
    (∀ key ∈ d.defined .feature, key ∉ e.defined .feature) ∧
      ∀ key ∈ d.defined .identity, key ∉ e.defined .identity)
    ⟨fun ⟨name, features, identities⟩ => ⟨name, features, identities⟩,
      fun h => ⟨h.name, h.features, h.identities⟩⟩

variable {d e : SchemaDocument} {documents : List SchemaDocument}

theorem Apart.symm (h : d.Apart e) : e.Apart d where
  name he hd hname := (h.name hd he hname.symm).symm
  features key hkey hkey' := h.features key hkey' hkey
  identities key hkey hkey' := h.identities key hkey' hkey

/-- Documents at different places are apart. -/
theorem Apart.of_pairwise (h : documents.Pairwise Apart) {i j : Nat} (hne : i ≠ j)
    (hd : documents[i]? = some d) (he : documents[j]? = some e) : d.Apart e := by
  obtain ⟨hi, rfl⟩ := List.getElem?_eq_some_iff.mp hd
  obtain ⟨hj, rfl⟩ := List.getElem?_eq_some_iff.mp he
  rcases Nat.lt_or_gt_of_ne hne with hlt | hgt
  · exact List.pairwise_iff_getElem.mp h i j hi hj hlt
  · exact (List.pairwise_iff_getElem.mp h j i hj hi hgt).symm

end SchemaDocument

/-! ## Statements of the core language -/

/-- A core statement is made of an element with the text of its keyword. -/
theorem Suppliers.Makes.name_eq {s : Suppliers} {e : Element} {k : Keyword}
    (h : s.Makes e (.core k)) : e.name = k.text := by
  obtain ⟨r, hr, hvariant⟩ := h
  rcases hq : e.isQualified with _ | _
  · rw [resolveElement, Element.splitName_of_not_isQualified hq] at hr
    rcases hk : Keyword.ofText? e.name with _ | k'
    · simp only [hk] at hr
      cases hr
    · simp only [hk] at hr
      cases hr
      cases hvariant
      exact (Keyword.ofText?_eq_some_iff.mp hk).symm
  · obtain ⟨qualifier, name, hsplit⟩ := Element.exists_splitName hq
    rw [resolveElement, hsplit] at hr
    rcases hm : e.scope.module? qualifier with _ | module
    · simp only [hm] at hr
      cases hr
    · simp only [hm] at hr
      rcases hc : s.resolve? ⟨module, name⟩ with _ | ⟨index, c⟩ <;> simp only [hc] at hr <;>
      · cases hr
        cases hvariant

/-- There is no colon in the text of a keyword. -/
theorem Keyword.not_mem_text (k : Keyword) : ':' ∉ k.text.toList := by
  cases k <;> decide

/-- An element with the text of a keyword becomes a core statement. -/
theorem Suppliers.Makes.eq_core {s : Suppliers} {e : Element} {v : Variant} {k : Keyword}
    (h : s.Makes e v) (hname : e.name = k.text) : v = .core k := by
  obtain ⟨r, hr, rfl⟩ := h
  have hk : Keyword.ofText? e.name = some k := Keyword.ofText?_eq_some_iff.mpr hname.symm
  have hq : e.isQualified = false := by
    rw [Element.isQualified, hname, ← Bool.not_eq_true, List.contains_iff_mem]
    exact k.not_mem_text
  rw [resolveElement, Element.splitName_of_not_isQualified hq] at hr
  simp only [hk] at hr
  cases hr
  rfl

/-- A statement is of a keyword when its variant says so. -/
theorem Node.isKeyword_iff {n : Node} {k : Keyword} :
    n.isKeyword k = true ↔ n.variant = .core k := by
  rw [isKeyword, keyword?, beq_iff_eq]
  rcases n.variant with k' | ⟨supplier, c⟩ <;> simp

/-! ## Trees of documents -/

namespace Sound

variable {suppliers : Suppliers} {documents : List SchemaDocument} {state : BuildState}
  {r : RootId}

/-- The top of a tree is the statement of a model. -/
theorem exists_model (h : Sound suppliers documents state) {x : NodeId} {n : Node}
    (hx : state.store.topOf r = some x) (hn : state.store.get? x = some n) :
    ∃ d, documents[r.index]? = some d ∧ d.isModel = true ∧ n.element = d.element := by
  obtain ⟨d, hd, hmodel⟩ := h.crowned r.index x hx
  have helement := h.treesOf.element_top r.index x hx
  rw [elementOf_of_get? hn, hd] at helement
  exact ⟨d, hd, hmodel, Option.some.inj helement⟩

/-- What a tree defines is defined by its document. -/
theorem mem_defined (h : Sound suppliers documents state) {k : Keyword} {x : NodeId} {n : Node}
    (hx : (x, n) ∈ state.store.definitions k r) :
    ∃ d, documents[r.index]? = some d ∧ n.definedKey ∈ d.defined k := by
  obtain ⟨top, htop, hmem, hn⟩ := mem_definitions.mp hx
  obtain ⟨hchild, hkeyword⟩ := List.mem_filter.mp hmem
  obtain ⟨m, hm⟩ := contains_iff.mp (contains_of_mem_childrenOf hchild)
  obtain ⟨d, hd, hmodel, helement⟩ := h.exists_model htop hm
  rw [childrenOf_of_get? hm] at hchild
  obtain ⟨child, hchild, hview⟩ := h.faithful.children top m hm x hchild
  rw [elementOf_of_get? hn] at hview
  obtain rfl := Option.some.inj hview
  rw [hn, Option.any_some, Node.isKeyword_iff] at hkeyword
  have hname : n.element.name = k.text := (hkeyword ▸ h.faithful.variant x n hn).name_eq
  refine ⟨d, hd, ?_⟩
  rw [SchemaDocument.defined, if_pos hmodel]
  refine List.mem_map.mpr ⟨n.element, List.mem_filter.mpr ⟨helement ▸ hchild, ?_⟩, rfl⟩
  exact beq_iff_eq.mpr hname

/-- The entry of a tree in one of the tables bears the name of its document. -/
theorem exists_of_mem_entries (h : Sound suppliers documents state) {isModule : Bool}
    {e : String × RootId} (he : e ∈ ModelTables.entries state.store isModule r) :
    ∃ d, documents[r.index]? = some d ∧ d.isModel = true ∧
      (d.element.name == "module") = isModule ∧ e.1 = d.element.argument := by
  rw [ModelTables.entries] at he
  rcases htop : state.store.topOf r with _ | top
  · rw [htop] at he
    cases he
  rcases hn : state.store.get? top with _ | n
  · rw [htop, Option.bind_some, hn] at he
    cases he
  rw [htop, Option.bind_some, hn] at he
  dsimp only at he
  split at he
  · next hmodule =>
    obtain rfl := List.mem_singleton.mp he
    obtain ⟨d, hd, hmodel, helement⟩ := h.exists_model htop hn
    have hmakes := h.faithful.variant top n hn
    have hiff : n.isKeyword .module = true ↔ n.element.name = "module" :=
      ⟨fun hk => (Node.isKeyword_iff.mp hk ▸ hmakes).name_eq,
        fun hname => Node.isKeyword_iff.mpr (hmakes.eq_core hname)⟩
    refine ⟨d, hd, hmodel, ?_, congrArg Element.argument helement⟩
    rw [← helement, ← hmodule, Bool.eq_iff_iff, hiff, beq_iff_eq]
  · cases he

/-- Trees of documents with different names have different names. -/
theorem named (h : Sound suppliers documents state)
    (hapart : documents.Pairwise SchemaDocument.Apart) : ModelTables.Named state.store := by
  intro isModule q r hne e he e' he' heq
  obtain ⟨d, hd, hmodel, hmodule, hname⟩ := h.exists_of_mem_entries he
  obtain ⟨d', hd', hmodel', hmodule', hname'⟩ := h.exists_of_mem_entries he'
  have hindex : q.index ≠ r.index := fun hsame => hne (congrArg RootId.mk hsame)
  have hsame : d.element.name = d'.element.name := by
    -- both are modules, or both are submodules
    rw [SchemaDocument.isModel, Bool.or_eq_true, beq_iff_eq, beq_iff_eq] at hmodel hmodel'
    rcases isModule with _ | _
    · rw [beq_eq_false_iff_ne] at hmodule hmodule'
      rw [hmodel.resolve_left hmodule, hmodel'.resolve_left hmodule']
    · rw [beq_iff_eq] at hmodule hmodule'
      rw [hmodule, hmodule']
  refine (SchemaDocument.Apart.of_pairwise hapart hindex hd hd').name hmodel hmodel' hsame ?_
  rw [← hname, ← hname', heq]

/-- Trees of documents that define different keys define different keys. -/
theorem apart (h : Sound suppliers documents state) {k : Keyword}
    (hapart : ∀ (i j : Nat) (d e : SchemaDocument), i ≠ j → documents[i]? = some d →
      documents[j]? = some e → ∀ key ∈ d.defined k, key ∉ e.defined k) :
    state.store.Apart k := by
  rintro q r hne ⟨x, n⟩ hx ⟨y, m⟩ hy heq
  obtain ⟨d, hd, hkey⟩ := h.mem_defined hx
  obtain ⟨e, he, hkey'⟩ := h.mem_defined hy
  have hindex : q.index ≠ r.index := fun hsame => hne (congrArg RootId.mk hsame)
  exact hapart q.index r.index d e hindex hd he _ hkey (heq ▸ hkey')

/-- Different trees define different features. -/
theorem apart_feature (h : Sound suppliers documents state)
    (hapart : documents.Pairwise SchemaDocument.Apart) : state.store.Apart .feature :=
  h.apart fun _ _ _ _ hne hd he => (SchemaDocument.Apart.of_pairwise hapart hne hd he).features

/-- Different trees define different identities. -/
theorem apart_identity (h : Sound suppliers documents state)
    (hapart : documents.Pairwise SchemaDocument.Apart) : state.store.Apart .identity :=
  h.apart fun _ _ _ _ hne hd he => (SchemaDocument.Apart.of_pairwise hapart hne hd he).identities

end Sound

/-! ## Changes that keep trees apart -/

namespace Store.Apart

variable {s t : Store} {k : Keyword}

/-- Renamed trees define different keys when the first ones do. -/
theorem of_renamed (h : s.Apart k) (hst : s.Renamed .refl t) : t.Apart k := by
  have hkeys : ∀ r, (t.definitions k r).map (fun d => d.2.definedKey) =
      (s.definitions k r).map fun d => d.2.definedKey := fun r =>
    hst.map_definitions (fun _ _ _ hnm => Renamed.definedKey hnm) k r
  intro q r hne d hd e he heq
  have hd' := List.mem_map_of_mem (f := fun d : NodeId × Node => d.2.definedKey) hd
  have he' := List.mem_map_of_mem (f := fun d : NodeId × Node => d.2.definedKey) he
  rw [hkeys] at hd' he'
  obtain ⟨d', hd', hkey⟩ := List.mem_map.mp hd'
  obtain ⟨e', he', hkey'⟩ := List.mem_map.mp he'
  exact h q r hne d' hd' e' he' (by rw [hkey, hkey', heq])

/-- New owners do not change what is defined. -/
theorem adopt (h : s.Apart k) (owner? : RootId → Option RootId) : (s.adopt owner?).Apart k := by
  have hsame : ∀ r, (s.adopt owner?).definitions k r = s.definitions k r := fun r => by
    rw [definitions, definitions, topOf_adopt]
    rfl
  intro q r hne
  rw [hsame, hsame]
  exact h q r hne

/-- Taking statements out leaves fewer definitions. -/
theorem of_thinned (h : s.Apart k) (ws : s.Wired) {gone : NodeId → Prop}
    (hst : Thinned s t gone) : t.Apart k := by
  have hback : ∀ r d, d ∈ t.definitions k r →
      ∃ e ∈ s.definitions k r, e.2.definedKey = d.2.definedKey := by
    rintro r ⟨x, n⟩ hx
    obtain ⟨top, htop, hmem, hn⟩ := mem_definitions.mp hx
    obtain ⟨hchild, hkeyword⟩ := List.mem_filter.mp hmem
    have hlive : t.contains x = true := contains_iff.mpr ⟨n, hn⟩
    obtain ⟨m, hm⟩ := contains_iff.mp (hst.contains_of_contains x hlive)
    have hface : n.face = m.face := by
      have hsame := hst.faceOf x hlive
      rw [faceOf, faceOf, hn, hm] at hsame
      exact Option.some.inj hsame
    have hparent : s.parentOf x = some top := by
      rw [← hst.parentOf x hlive]
      exact hst.owned.wired.parentOf_of_mem hchild
    refine ⟨(x, m), mem_definitions.mpr ⟨top, ?_, ?_, hm⟩, ?_⟩
    · rw [← htop, topOf, topOf, tree?, tree?, hst.trees]
    · refine List.mem_filter.mpr ⟨ws.mem_of_parentOf hparent, ?_⟩
      rw [hn, Option.any_some, Node.isKeyword_of_face hface] at hkeyword
      rw [hm, Option.any_some, hkeyword]
    · have helement : n.element = m.element := congrArg (fun face => face.2.2) hface
      rw [Node.definedKey, Node.definedKey, Node.argument_of_face hface, helement]
  intro q r hne d hd e he heq
  obtain ⟨d', hd', hkey⟩ := hback q d hd
  obtain ⟨e', he', hkey'⟩ := hback r e he
  exact h q r hne d' hd' e' he' (by rw [hkey, hkey', heq])

end Store.Apart
end StatementForest
