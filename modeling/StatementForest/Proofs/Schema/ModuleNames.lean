import StatementForest.Proofs.Schema.SubmoduleOwners

/-!
# The names of a module

A module is found with the value of its statement without blank ends.  What it defines is known
under the value as it is written, since names without a qualifier in its document belong to the
module of this name.  Both are the same when the value has no blank ends.  When it has, a lookup
with the name of the module does not reach what the module defines.

Main results:

- Theorem `SchemaDocument.owner_of_mem_defined`: the module to which definitions belong.
- Theorem `Schema.moduleTree?_iff`: the tree that is found with the name of a module.
- Theorem `Schema.exists_of_find?_features`, `Schema.exists_of_find?_identities`: there are no
  other modules under which something is known.
- Theorem `Schema.known_of_build`: the names of a module and of what it defines.
- Theorem `Schema.unknown_of_build_namedSpec`: they may differ.

Current gaps:

- Nothing is pruned, and no document names another module for its own names.
-/

namespace StatementForest

open Store

/-! ## The module of a document -/

namespace ElementSpec

variable {source : Option String} {scope : Scope}

/-- An element keeps its name. -/
theorem name_toElement (spec : ElementSpec) : (spec.toElement source scope).name = spec.name := by
  obtain ⟨⟩ := spec
  rw [toElement]

/-- An element keeps its argument. -/
theorem value_toElement (spec : ElementSpec) :
    (spec.toElement source scope).value = spec.value := by
  obtain ⟨⟩ := spec
  rw [toElement]

/-- Bindings do not change the module of names without a qualifier. -/
theorem home_toElement (spec : ElementSpec) :
    (spec.toElement source scope).scope.home = scope.home := by
  obtain ⟨⟩ := spec
  rw [toElement]
  dsimp only
  split <;> rfl

/-- The translated children belong to the module of their scope. -/
theorem home_of_mem_toElements {specs : List ElementSpec} {e : Element}
    (h : e ∈ toElements source scope specs) : e.scope.home = scope.home := by
  induction specs with
  | nil =>
    rw [toElements] at h
    cases h
  | cons spec rest ih =>
    rw [toElements] at h
    obtain rfl | h := List.mem_cons.mp h
    · exact spec.home_toElement
    · exact ih h

/-- The children of a translated element belong to the same module. -/
theorem home_of_mem_children {spec : ElementSpec} {e : Element}
    (h : e ∈ (spec.toElement source scope).children) : e.scope.home = scope.home := by
  obtain ⟨⟩ := spec
  rw [toElement] at h
  refine (home_of_mem_toElements h).trans ?_
  split <;> rfl

end ElementSpec

namespace SchemaDocument

variable {d : SchemaDocument} {spec : DocumentSpec} (hspec : d.element = spec.toElement)

include hspec

/-- What a document defines belongs to the module of its names without a qualifier. -/
theorem owner_of_mem_defined {k : Keyword} {key : Key} (h : key ∈ d.defined k) :
    key.owner = spec.effectiveHome := by
  rw [defined, hspec] at h
  split at h
  · obtain ⟨e, he, rfl⟩ := List.mem_map.mp h
    exact ElementSpec.home_of_mem_children (List.mem_filter.mp he).1
  · cases h

/-- The statement of a model has the written value without blank ends. -/
theorem argument_of_spec : d.element.argument = Text.trim (spec.root.value.getD "") := by
  have hvalue : spec.toElement.value = spec.root.value := spec.root.value_toElement
  rw [hspec, Element.argument, hvalue]
  rcases spec.root.value with _ | value <;> rfl

/-- Unless it says otherwise, the names without a qualifier in the document of a module belong to
the written value of its statement. -/
theorem effectiveHome_of_module (hhome : spec.home = none) (hname : d.element.name = "module") :
    spec.effectiveHome = spec.root.value.getD "" := by
  rw [hspec] at hname
  have hroot : spec.root.name = "module" := spec.root.name_toElement.symm.trans hname
  rw [DocumentSpec.effectiveHome, hhome]
  exact if_pos hroot

end SchemaDocument

/-- The documents that are made of specifications, whatever they are used for. -/
theorem DocumentSpec.exists_of_getElem? {specs : List DocumentSpec}
    {documents : List SchemaDocument}
    (hspecs : documents.map (·.element) = specs.map toElement) {i : Nat} {d : SchemaDocument}
    (hd : documents[i]? = some d) : ∃ spec, specs[i]? = some spec ∧ d.element = spec.toElement := by
  have hi : (documents.map (·.element))[i]? = (specs.map toElement)[i]? := by rw [hspecs]
  rw [List.getElem?_map, List.getElem?_map, hd, Option.map_some] at hi
  obtain ⟨spec, hspec, helement⟩ := Option.map_eq_some_iff.mp hi.symm
  exact ⟨spec, hspec, helement.symm⟩

/-! ## Looking up what is defined -/

namespace Roll

variable {κ α : Type} [DecidableEq κ] {items : List (κ × α)} {key : κ} {v : α}

/-- The last value that is written under a key is one of those that are written. -/
theorem mem_of_latest (h : latest items key = some v) : (key, v) ∈ items := by
  obtain ⟨earlier, later, hitems, -⟩ := List.lookup_eq_some_iff.mp h
  exact List.mem_reverse.mp (hitems ▸ List.mem_append_cons_self)

/-- Where there is an entry of a key there is a last one. -/
theorem exists_latest_of_mem (h : (key, v) ∈ items) : ∃ w, latest items key = some w :=
  Option.ne_none_iff_exists'.mp fun hnone => latest_eq_none_iff.mp hnone _ h rfl

end Roll

/-- A request names a module and a feature, unless the name of the module has a colon. -/
theorem FeatureRegistry.requested?_eq (r : FeatureRegistry) {module : String}
    (hmodule : ':' ∉ module.toList) (name : String) : r.requested? (module ++ ":" ++ name) =
      if r.entries.contains ⟨module, name⟩ then some ⟨module, name⟩ else none := by
  have hsplit : Text.splitAtFirst ':' (module ++ ":" ++ name) = some (module, name) := by
    refine Text.splitAtFirst_eq_some_iff.mpr ⟨?_, hmodule⟩
    rw [String.toList_append, String.toList_append, List.append_assoc]
    rfl
  rw [requested?, hsplit, Option.bind_some]

namespace Store

variable {s : Store} {k : Keyword} {root : RootId} {key : Key} {β : Type}
  {entry : RootId → NodeId × Node → β} {e : β} {d : NodeId × Node}

/-- What was written last under a key was written for a definition with this key. -/
theorem exists_definition_of_latest (h : Roll.latest (s.treeIds.flatMap fun q =>
    (s.definitions k q).map fun d => (d.2.definedKey, entry q d)) key = some e) :
    ∃ q, ∃ d ∈ s.definitions k q, d.2.definedKey = key ∧ entry q d = e := by
  obtain ⟨q, -, hq⟩ := List.mem_flatMap.mp (Roll.mem_of_latest h)
  obtain ⟨d, hd, heq⟩ := List.mem_map.mp hq
  exact ⟨q, d, hd, Prod.mk.inj heq⟩

/-- Something was written under every key that is defined in a tree. -/
theorem exists_latest_of_definition (entry : RootId → NodeId × Node → β) (keyOf : β → Key)
    (hentry : ∀ q d, keyOf (entry q d) = d.2.definedKey) (hd : d ∈ s.definitions k root) : ∃ e,
      Roll.latest (s.treeIds.flatMap fun q =>
        (s.definitions k q).map fun d => (d.2.definedKey, entry q d)) d.2.definedKey = some e ∧
          keyOf e = d.2.definedKey := by
  obtain ⟨top, htop, -, -⟩ := mem_definitions.mp hd
  obtain ⟨tree, htree, -⟩ := exists_tree_of_topOf htop
  have hroot := Renamed.mem_treeIds_iff.mpr (Option.isSome_iff_exists.mpr ⟨tree, htree⟩)
  have hmem : (d.2.definedKey, entry root d) ∈ s.treeIds.flatMap fun q =>
      (s.definitions k q).map fun d => (d.2.definedKey, entry q d) :=
    List.mem_flatMap.mpr ⟨root, hroot, List.mem_map_of_mem hd⟩
  obtain ⟨e, he⟩ := Roll.exists_latest_of_mem hmem
  obtain ⟨q, d', -, hkey, rfl⟩ := exists_definition_of_latest he
  exact ⟨_, he, (hentry q d').trans hkey⟩

end Store

/-! ## Schemas -/

namespace Schema

variable {c : Configuration} {grammar : Grammar} {suppliers : Suppliers}
  {documents : List SchemaDocument} {specs : List DocumentSpec} {schema : Schema} {root : RootId}
  {name : String} {d : NodeId × Node}

/-- A feature that a tree defines is known under its key. -/
theorem NamesDefinitions.exists_feature (h : schema.NamesDefinitions)
    (hd : d ∈ schema.store.definitions .feature root) :
    ∃ e, schema.features.entries.find? d.2.definedKey = some e ∧
      e.feature.key = d.2.definedKey := by
  rw [h.features]
  exact exists_latest_of_definition _ (fun e : FeatureEntry => e.feature.key) (fun _ _ => rfl) hd

/-- An identity that a tree defines is known under its key. -/
theorem NamesDefinitions.exists_identity (h : schema.NamesDefinitions)
    (hd : d ∈ schema.store.definitions .identity root) :
    ∃ i, schema.identities.find? d.2.definedKey = some i ∧ i.key = d.2.definedKey := by
  obtain ⟨e, he, hkey⟩ := exists_latest_of_definition
    (fun q d => IdentityCollection.entryOf schema.store (schema.store.uriOf q) d.1 d.2)
    (·.identity.key) (fun _ _ => rfl) hd
  obtain ⟨hmem, -⟩ := (h.identities _ e).mpr he
  have hsome : (schema.identities.entries.find?
      (·.identity.key = d.2.definedKey)).isSome = true :=
    List.find?_isSome.mpr ⟨e, hmem, decide_eq_true hkey⟩
  obtain ⟨found, hfound⟩ := Option.isSome_iff_exists.mp hsome
  have hkey' := List.find?_some hfound
  refine ⟨found.identity, ?_, of_decide_eq_true hkey'⟩
  rw [IdentityRegistry.find?, hfound, Option.map_some]

/-- A name of a module stands for the first tree that has it. -/
theorem moduleTree?_iff (hprunes : c.prunes = false)
    (hbuild : build c grammar suppliers documents = .ok schema) :
    schema.moduleTree? name = some root ↔ schema.store.FirstNamed true name root := by
  obtain ⟨merged, -, -, -, -, ⟨stages⟩⟩ := exists_stages hbuild
  rw [moduleTree?, stages.tables, stages.first_iff hprunes]
  exact ModelTables.find?_modules_iff

/-- What is defined in a tree is known under the module of its document. -/
theorem exists_of_mem_definitions (hprunes : c.prunes = false)
    (hspecs : documents.map (·.element) = specs.map DocumentSpec.toElement)
    (hbuild : build c grammar suppliers documents = .ok schema) {k : Keyword}
    (hd : d ∈ schema.store.definitions k root) : ∃ spec, specs[root.index]? = some spec ∧
      d.2.definedKey = ⟨spec.effectiveHome, d.2.argument⟩ := by
  obtain ⟨merged, -, -, hsound, -, ⟨stages⟩⟩ := exists_stages hbuild
  obtain ⟨x, n⟩ := d
  have halike := stages.alike hprunes
  obtain ⟨top, htop, hmem, hn⟩ := mem_definitions.mp hd
  obtain ⟨m, hm, hface⟩ := halike.exists_get?_left hn
  rw [stages.topOf] at htop
  rw [halike.childrenOfKeyword] at hmem
  obtain ⟨document, hdocument, hdefined⟩ :=
    hsound.mem_defined (mem_definitions.mpr ⟨top, htop, hmem, hm⟩)
  obtain ⟨spec, hspec, hmade⟩ := DocumentSpec.exists_of_getElem? hspecs hdocument
  refine ⟨spec, hspec, ?_⟩
  rw [← SchemaDocument.owner_of_mem_defined hmade hdefined, Node.definedKey, Node.definedKey,
    Node.element_of_face hface, Node.argument_of_face hface]

/-- Features are known under the modules of documents only. -/
theorem exists_of_find?_features (hprunes : c.prunes = false)
    (hspecs : documents.map (·.element) = specs.map DocumentSpec.toElement)
    (hbuild : build c grammar suppliers documents = .ok schema) {key : Key}
    {e : FeatureEntry} (h : schema.features.entries.find? key = some e) :
    ∃ spec ∈ specs, key.owner = spec.effectiveHome := by
  rw [(namesDefinitions_of_build hprunes hbuild).features] at h
  obtain ⟨q, d, hd, hkey, -⟩ := exists_definition_of_latest h
  obtain ⟨spec, hspec, hdefined⟩ := exists_of_mem_definitions hprunes hspecs hbuild hd
  exact ⟨spec, List.mem_of_getElem? hspec, congrArg Key.owner (hkey.symm.trans hdefined)⟩

/-- Identities are known under the modules of documents only. -/
theorem exists_of_find?_identities (hprunes : c.prunes = false)
    (hspecs : documents.map (·.element) = specs.map DocumentSpec.toElement)
    (hbuild : build c grammar suppliers documents = .ok schema) {key : Key}
    {i : GlobalName} (h : schema.identities.find? key = some i) :
    ∃ spec ∈ specs, key.owner = spec.effectiveHome := by
  obtain ⟨e, he, rfl⟩ := Option.map_eq_some_iff.mp h
  have hkey := List.find?_some he
  have hlatest := ((namesDefinitions_of_build hprunes hbuild).identities key e).mp
    ⟨List.mem_of_find?_eq_some he, of_decide_eq_true hkey⟩
  obtain ⟨q, d, hd, hkey, -⟩ := exists_definition_of_latest hlatest
  obtain ⟨spec, hspec, hdefined⟩ := exists_of_mem_definitions hprunes hspecs hbuild hd
  exact ⟨spec, List.mem_of_getElem? hspec, congrArg Key.owner (hkey.symm.trans hdefined)⟩

/-- What is known under a name of a module: the definitions of a tree. -/
structure KnownUnder (schema : Schema) (root : RootId) (home : String) : Prop where
  keys : ∀ k, ∀ d ∈ schema.store.definitions k root, d.2.definedKey = ⟨home, d.2.argument⟩
  features : ∀ d ∈ schema.store.definitions .feature root, ∃ f,
    schema.features.find? ⟨home, d.2.argument⟩ = some f ∧ f.key = ⟨home, d.2.argument⟩
  identities : ∀ d ∈ schema.store.definitions .identity root, ∃ i,
    schema.identities.find? ⟨home, d.2.argument⟩ = some i ∧ i.key = ⟨home, d.2.argument⟩
  /-- A request splits at its first colon. -/
  requests : ':' ∉ home.toList → ∀ d ∈ schema.store.definitions .feature root,
    schema.features.requested? (home ++ ":" ++ d.2.argument) = some ⟨home, d.2.argument⟩

/-- What a tree defines is known under the name of its module, when its keys have that name. -/
theorem NamesDefinitions.knownUnder (h : schema.NamesDefinitions) {home : String} (hkeys : ∀ k,
    ∀ d ∈ schema.store.definitions k root, d.2.definedKey = ⟨home, d.2.argument⟩) :
    schema.KnownUnder root home where
  keys := hkeys
  features d hd := by
    obtain ⟨e, he, hkey⟩ := h.exists_feature hd
    rw [hkeys _ d hd] at he hkey
    refine ⟨e.feature, ?_, hkey⟩
    rw [FeatureRegistry.find?, he, Option.map_some]
  identities d hd := by
    obtain ⟨i, hi, hkey⟩ := h.exists_identity hd
    rw [hkeys _ d hd] at hi hkey
    exact ⟨i, hi, hkey⟩
  requests hhome d hd := by
    obtain ⟨e, he, -⟩ := h.exists_feature hd
    rw [hkeys _ d hd] at he
    rw [FeatureRegistry.requested?_eq _ hhome, Roll.contains, he]
    rfl

/-- A module that is found with a name is known under the written value of its statement, which is
this name between blanks.  When there are no blanks, it is known under the name itself. -/
theorem known_of_build (hprunes : c.prunes = false)
    (hspecs : documents.map (·.element) = specs.map DocumentSpec.toElement)
    (hhome : ∀ spec ∈ specs, spec.home = none)
    (hbuild : build c grammar suppliers documents = .ok schema)
    (hroot : schema.moduleTree? name = some root) : ∃ spec, specs[root.index]? = some spec ∧
      Text.trim (spec.root.value.getD "") = name ∧
        schema.KnownUnder root (spec.root.value.getD "") ∧
        (Text.Unpadded (spec.root.value.getD "").toList → schema.KnownUnder root name) := by
  have htells := namesDefinitions_of_build hprunes hbuild
  obtain ⟨merged, -, -, hsound, -, ⟨stages⟩⟩ := exists_stages hbuild
  obtain ⟨top, n, htop, hn, hmodule, rfl⟩ :=
    (stages.hasTreeNamed_iff hprunes).mp ((moduleTree?_iff hprunes hbuild).mp hroot).hasTreeNamed
  obtain ⟨document, hdocument, -, helement⟩ := hsound.exists_model htop hn
  obtain ⟨spec, hspec, hmade⟩ := DocumentSpec.exists_of_getElem? hspecs hdocument
  have hname := (hsound.faithful.isKeyword_iff hn .module).mp hmodule
  have hwritten := SchemaDocument.effectiveHome_of_module hmade
    (hhome spec (List.mem_of_getElem? hspec)) (helement ▸ hname)
  have hargument : n.argument = Text.trim (spec.root.value.getD "") := by
    rw [Node.argument, helement, SchemaDocument.argument_of_spec hmade]
  have hknows : schema.KnownUnder root (spec.root.value.getD "") :=
    htells.knownUnder fun k d hd => by
    obtain ⟨spec', hspec', hkey⟩ := exists_of_mem_definitions hprunes hspecs hbuild hd
    cases hspec.symm.trans hspec'
    rw [hkey, hwritten]
  refine ⟨spec, hspec, hargument.symm, hknows, fun hunpadded => ?_⟩
  rw [hargument, Text.trim_of_unpadded hunpadded]
  exact hknows

/-- What the grammar keeps of a document is defined in its tree. -/
theorem exists_definition_of_build (hproper : grammar.Proper) (hprunes : c.prunes = false)
    (hbuild : build c grammar suppliers documents = .ok schema) {i : Nat}
    {document : SchemaDocument} (hdocument : documents[i]? = some document)
    (hmodel : document.isModel = true) {k l : Keyword} (hk : document.element.name = k.text)
    {e : Element} (he : e ∈ (grammar.below k).kept document.element.children)
    (hl : e.name = l.text) : ∃ d ∈ schema.store.definitions l ⟨i⟩, d.2.element = e := by
  obtain ⟨top, n, htop, hn, helement⟩ := exists_top_of_build hproper hbuild hdocument hmodel
  have hcore := (isKeyword_iff_of_build hprunes hbuild hn k).mpr (helement ▸ hk)
  obtain ⟨merged, hsound, hobeys, ⟨stages⟩⟩ := exists_obeysGrammar hproper hbuild
  have halike := stages.alike hprunes
  obtain ⟨n', hn', hface⟩ := halike.exists_get?_left hn
  rw [Node.isKeyword_of_face hface, Node.isKeyword_iff] at hcore
  have helement' : n'.element = document.element :=
    (Node.element_of_face hface).symm.trans helement
  obtain ⟨x, m', hx, hm', rfl⟩ := hobeys.exists_child hsound hn'
    (by rw [hcore, helement']; exact he) hl
  obtain ⟨m, hm, hface'⟩ := halike.exists_get? hm'
  rw [← halike.childrenOfKeyword] at hx
  exact ⟨(x, m), mem_definitions.mpr ⟨top, htop, hx, hm⟩, Node.element_of_face hface'⟩

/-- The specification of a module with a feature and an identity. -/
def namedSpec (value : String) : DocumentSpec where
  root := {
    name := "module", value := some value
    children := [
      { name := "namespace", value := some "urn:m" }, { name := "prefix", value := some "m" },
      { name := "feature", value := some "f" }, { name := "identity", value := some "i" }] }

/-- This document has no other module of its names. -/
theorem home_namedSpec (value : String) : ∀ spec ∈ [namedSpec value], spec.home = none := by
  intro spec hspec
  rw [List.mem_singleton.mp hspec]
  rfl

/-- The module is found with its value without blank ends. -/
theorem moduleTree?_namedSpec (value : String) (hprunes : c.prunes = false)
    (hbuild : build c Grammar.standard suppliers ([namedSpec value].map .ofSpec) = .ok schema) :
    schema.moduleTree? (Text.trim value) = some ⟨0⟩ := by
  have hmade : (SchemaDocument.ofSpec (namedSpec value)).element = (namedSpec value).toElement :=
    rfl
  have hargument := SchemaDocument.argument_of_spec hmade
  refine (moduleTree?_iff hprunes hbuild).mpr ⟨?_, fun _ _ => Nat.zero_le _⟩
  exact (hasTreeNamed_iff Grammar.proper_standard hprunes hbuild).mpr
    ⟨.ofSpec (namedSpec value), rfl, rfl, rfl, hargument⟩

/-- A module whose name has no blank ends is known under it. -/
theorem known_of_build_namedSpec : ∃ schema,
    Configuration.template.prunes = false ∧
      ([namedSpec "m"].map SchemaDocument.ofSpec).map (·.element) =
        [namedSpec "m"].map DocumentSpec.toElement ∧
      (∀ spec ∈ [namedSpec "m"], spec.home = none) ∧
      build Configuration.template Grammar.standard {} ([namedSpec "m"].map .ofSpec) =
        .ok schema ∧
      schema.moduleTree? "m" = some ⟨0⟩ ∧ ∃ spec, [namedSpec "m"][0]? = some spec ∧
      Text.trim (spec.root.value.getD "") = "m" ∧ schema.KnownUnder ⟨0⟩ (spec.root.value.getD "") ∧
        (Text.Unpadded (spec.root.value.getD "").toList → schema.KnownUnder ⟨0⟩ "m") := by
  have hprunes : Configuration.template.prunes = false := rfl
  have hvalid : Configuration.template.validate = .ok () := by rfl
  obtain ⟨_, _, hnever⟩ | ⟨schema, hbuild, -⟩ := treesOf_of_valid hvalid Grammar.standard {}
    ([namedSpec "m"].map SchemaDocument.ofSpec)
  · cases hnever
  have hname : Text.trim "m" = "m" := by decide
  have hroot : schema.moduleTree? "m" = some ⟨0⟩ :=
    hname ▸ moduleTree?_namedSpec "m" hprunes hbuild
  exact ⟨schema, hprunes, rfl, home_namedSpec "m", hbuild, hroot,
    known_of_build hprunes rfl (home_namedSpec "m") hbuild hroot⟩

/-- The module is found with a name under which neither its feature nor its identity is known, and
a request with this name does not reach the feature. -/
theorem unknown_of_build_namedSpec : ∃ schema f i,
    Configuration.template.prunes = false ∧ (∀ spec ∈ [namedSpec " m "], spec.home = none) ∧
      build Configuration.template Grammar.standard {} ([namedSpec " m "].map .ofSpec) =
        .ok schema ∧
      schema.moduleTree? "m" = some ⟨0⟩ ∧
      f ∈ schema.store.definitions .feature ⟨0⟩ ∧
      schema.features.find? ⟨"m", f.2.argument⟩ = none ∧
      schema.features.requested? ("m" ++ ":" ++ f.2.argument) = none ∧
      i ∈ schema.store.definitions .identity ⟨0⟩ ∧
      schema.identities.find? ⟨"m", i.2.argument⟩ = none := by
  have hprunes : Configuration.template.prunes = false := rfl
  have hvalid : Configuration.template.validate = .ok () := by rfl
  obtain ⟨_, _, hnever⟩ | ⟨schema, hbuild, -⟩ := treesOf_of_valid hvalid Grammar.standard {}
    ([namedSpec " m "].map SchemaDocument.ofSpec)
  · cases hnever
  have hname : Text.trim " m " = "m" := by decide
  have hroot : schema.moduleTree? "m" = some ⟨0⟩ :=
    hname ▸ moduleTree?_namedSpec " m " hprunes hbuild
  have hspecs : ([namedSpec " m "].map SchemaDocument.ofSpec).map (·.element) =
    [namedSpec " m "].map DocumentSpec.toElement := rfl
  -- nothing is known under the name without blanks
  have hunknown : ∀ key : Key, (∃ spec ∈ [namedSpec " m "], key.owner = spec.effectiveHome) →
      key.owner ≠ "m" := by
    rintro key ⟨spec, hspec, howner⟩
    rw [howner, List.mem_singleton.mp hspec]
    decide
  have hfeature : ∀ name, schema.features.entries.find? ⟨"m", name⟩ = none := fun name =>
    Option.eq_none_iff_forall_ne_some.mpr fun e he =>
      hunknown _ (exists_of_find?_features hprunes hspecs hbuild he) rfl
  have hidentity : ∀ name, schema.identities.find? ⟨"m", name⟩ = none := fun name =>
    Option.eq_none_iff_forall_ne_some.mpr fun i hi =>
      hunknown _ (exists_of_find?_identities hprunes hspecs hbuild hi) rfl
  have hdefines : ∀ l : Keyword, ((Grammar.standard.below .module).kept
      (SchemaDocument.ofSpec (namedSpec " m ")).element.children).any (·.name == l.text) = true →
        ∃ d, d ∈ schema.store.definitions l ⟨0⟩ := by
    intro l hl
    obtain ⟨e, he, hname⟩ := List.any_eq_true.mp hl
    obtain ⟨d, hd, -⟩ := exists_definition_of_build Grammar.proper_standard hprunes hbuild
      (i := 0) rfl rfl (k := .module) rfl he (beq_iff_eq.mp hname)
    exact ⟨d, hd⟩
  obtain ⟨f, hf⟩ := hdefines .feature (by decide)
  obtain ⟨i, hi⟩ := hdefines .identity (by decide)
  refine ⟨schema, f, i, hprunes, home_namedSpec _, hbuild, hroot, hf, ?_, ?_, hi, hidentity _⟩
  · rw [FeatureRegistry.find?, hfeature, Option.map_none]
  · rw [FeatureRegistry.requested?_eq _ (by decide), Roll.contains, hfeature]
    rfl

end Schema
end StatementForest
