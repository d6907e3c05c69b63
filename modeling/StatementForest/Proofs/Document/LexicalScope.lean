import StatementForest.Proofs.Schema.ModuleNames

/-!
# Lexical scoping

A document is translated place by place.  An element has the name, the value and the line that are
written at its place, and as many children.  A qualifier in it means what the innermost bindings
around it say.  What no bindings around it say is said by the bindings beside the document, by the
last `import` for the qualifier, or by the qualifiers that the document declares for itself.

The translation carries one dictionary down the tree and writes over it.  What is written last is
found first, so the layers of a scope are searched in the opposite order of writing them.

Main results:

- Theorem `Dictionary.find?_insertAll`: the last entry that is written decides.
- Theorem `DocumentSpec.module?_scope`: what a document binds before any element does.
- Theorem `DocumentSpec.Translates.child`: one step down the tree.
- Theorem `DocumentSpec.renders_toElement`: what is found at any place of a document.
-/

namespace Option.Rel

variable {α β γ δ : Type} {r : α → β → Prop} {q : γ → δ → Prop} {a : Option α} {b : Option β}

/-- Optional values that are related one way are related in a weaker one. -/
theorem imp {r' : α → β → Prop} (h : Option.Rel r a b) (himp : ∀ x y, r x y → r' x y) :
    Option.Rel r' a b := by
  rcases h with ⟨hxy⟩ | _
  · exact .some (himp _ _ hxy)
  · exact .none

/-- Related optional values stay related when something related is read off them. -/
theorem bind {f : α → Option γ} {g : β → Option δ} (h : Option.Rel r a b)
    (hfg : ∀ x y, r x y → Option.Rel q (f x) (g y)) : Option.Rel q (a.bind f) (b.bind g) := by
  rcases h with ⟨hxy⟩ | _
  · exact hfg _ _ hxy
  · exact .none

end Option.Rel

namespace StatementForest

/-! ## Written entries -/

namespace Dictionary

variable {α : Type}

/-- A dictionary with a new entry has this one under its key, and the others as before. -/
theorem find?_insert (d : Dictionary α) (key other : String) (value : α) :
    (d.insert key value).find? other = ([(key, value)].lookup other).or (d.find? other) := by
  by_cases h : other = key
  · rw [h, find?_insert_self, List.lookup_cons_self, Option.some_or]
  · rw [find?_insert_of_ne d value h, List.lookup_cons, beq_false_of_ne h]
    rfl

/-- What is written last under a key is found, and what was there before unless something is
written. -/
theorem find?_insertAll (d : Dictionary α) (entries : List (String × α)) (key : String) :
    (d.insertAll entries).find? key = (Roll.latest entries key).or (d.find? key) := by
  induction entries generalizing d with
  | nil => rfl
  | cons e rest ih =>
    rw [insertAll, List.foldl_cons, ← insertAll, ih, find?_insert, Roll.latest_cons,
      Option.or_assoc]

/-- A dictionary of entries has the last one for each key. -/
theorem find?_ofList (entries : List (String × α)) (key : String) :
    (ofList entries).find? key = Roll.latest entries key := by
  rw [ofList, find?_insertAll, find?_empty, Option.or_none]

/-- A dictionary that is written over another one hides it. -/
theorem find?_insertAll_entries (d d' : Dictionary α) (key : String) :
    (d.insertAll d'.entries).find? key = (d'.find? key).or (d.find? key) := by
  rw [find?_insertAll, ← find?_ofList, ofList_entries]

/-- Nothing is found in an empty dictionary. -/
theorem find?_of_isEmpty {d : Dictionary α} (h : d.isEmpty = true) (key : String) :
    d.find? key = none := by
  rw [find?, List.isEmpty_iff.mp h]
  rfl

end Dictionary

/-- Bindings that are added decide first, and the scope decides about the others. -/
theorem Scope.module?_bindAll (scope : Scope) (bindings : Dictionary String) (qualifier : String) :
    (scope.bindAll bindings).module? qualifier =
      (bindings.find? qualifier).or (scope.module? qualifier) :=
  scope.bindings.find?_insertAll_entries bindings qualifier

namespace Roll

variable {κ α : Type} [DecidableEq κ]

/-- The last entry is among the later ones, or else among the earlier ones. -/
theorem latest_append (items items' : List (κ × α)) (key : κ) :
    latest (items ++ items') key = (latest items' key).or (latest items key) := by
  rw [latest, List.reverse_append, List.lookup_append, latest, latest]

/-- The entry that an item may give is found when it has the key. -/
theorem latest_toList (entry : Option (κ × α)) (key : κ) :
    latest entry.toList key = entry.bind fun e => if e.1 = key then some e.2 else none := by
  rcases entry with _ | e
  · rfl
  · by_cases h : e.1 = key
    · rw [Option.bind_some, if_pos h, ← h]
      exact List.lookup_cons_self
    · rw [Option.bind_some, if_neg h]
      exact latest_eq_none_iff.mpr fun e' he => List.mem_singleton.mp he ▸ h

end Roll

/-! ## What a document binds -/

namespace ElementSpec

/-- Whether the first `prefix` of an element declares a qualifier. -/
def declares (spec : ElementSpec) (qualifier : String) : Bool :=
  spec.childValue? "prefix" == some qualifier

/-- The module that an `import` binds a qualifier to. -/
def imported? (spec : ElementSpec) (qualifier : String) : Option String :=
  if spec.name = "import" ∧ spec.declares qualifier then spec.value else none

end ElementSpec

namespace DocumentSpec

/-- The module that a document declares a qualifier for: the last `import` of the qualifier
decides, then what the document calls itself. -/
def declared? (spec : DocumentSpec) (qualifier : String) : Option String :=
  (spec.root.children.reverse.findSome? (·.imported? qualifier)).or <|
    (if (spec.root.child? "belongs-to").any (·.declares qualifier) then some spec.effectiveHome
      else none).or <|
    if spec.root.declares qualifier then some spec.effectiveHome else none

/-- The module that a qualifier stands for inside of some elements, the innermost first. -/
def visible? (spec : DocumentSpec) (around : List ElementSpec) (qualifier : String) :
    Option String :=
  (around.findSome? (·.bindings.find? qualifier)).or <|
    (spec.bindings.find? qualifier).or (spec.declared? qualifier)

variable {spec : DocumentSpec}

/-- An import binds the qualifier that it declares. -/
theorem latest_importBinding? (e : ElementSpec) (qualifier : String) :
    Roll.latest (importBinding? e).toList qualifier = e.imported? qualifier := by
  rw [Roll.latest_toList, importBinding?, ElementSpec.imported?, ElementSpec.declares]
  by_cases hname : e.name = "import"
  · rcases e.value with _ | module <;> rcases e.childValue? "prefix" with _ | declared <;>
      simp [hname, pure]
  · simp [hname]

/-- The last import of a qualifier binds it. -/
theorem latest_imports (children : List ElementSpec) (qualifier : String) :
    Roll.latest (children.filterMap importBinding?) qualifier =
      children.reverse.findSome? (·.imported? qualifier) := by
  induction children with
  | nil => rfl
  | cons e rest ih =>
    have hcons : (e :: rest).filterMap importBinding? =
        (importBinding? e).toList ++ rest.filterMap importBinding? := by
      rw [List.filterMap_cons]
      cases importBinding? e <;> rfl
    rw [hcons, Roll.latest_append, latest_importBinding?, ih, List.reverse_cons,
      List.findSome?_append]
    rcases h : e.imported? qualifier <;> simp [h]

/-- What a document declares for itself is bound to the module of its own names. -/
theorem latest_own (own : Option String) (home qualifier : String) :
    Roll.latest (own.map (·, home)).toList qualifier =
      if own == some qualifier then some home else none := by
  rw [Roll.latest_toList]
  rcases own with _ | declared <;> simp

/-- What is written beside a document hides what it declares. -/
theorem module?_scope (spec : DocumentSpec) (qualifier : String) :
    spec.scope.module? qualifier = spec.visible? [] qualifier := by
  have howner : Roll.latest ((spec.root.child? "belongs-to").bind fun b =>
      (b.childValue? "prefix").map (·, spec.effectiveHome)).toList qualifier =
      if (spec.root.child? "belongs-to").any (·.declares qualifier) then some spec.effectiveHome
      else none := by
    rcases spec.root.child? "belongs-to" with _ | b
    · rfl
    · exact latest_own (b.childValue? "prefix") spec.effectiveHome qualifier
  have hdeclared : (Dictionary.ofList spec.declaredBindings).find? qualifier =
      spec.declared? qualifier := by
    rw [Dictionary.find?_ofList, declaredBindings, Roll.latest_append, Roll.latest_append,
      latest_imports, howner, latest_own]
    rfl
  rw [scope, Scope.module?, Dictionary.find?_insertAll_entries, hdeclared]
  rfl

end DocumentSpec

/-! ## Places -/

/-- A place in a specification: what is written there, and what encloses it, the innermost
first. -/
structure Place where
  here : ElementSpec
  around : List ElementSpec := []

namespace Place

/-- The elements around what is written inside of a place. -/
def within (p : Place) : List ElementSpec := p.here :: p.around

/-- The place of a child. -/
def child? (p : Place) (i : Nat) : Option Place :=
  p.here.children[i]?.map fun e => ⟨e, p.within⟩

/-- The place that is reached by going from child to child. -/
def descend? : Place → List Nat → Option Place
  | p, [] => some p
  | p, i :: path => (p.child? i).bind (·.descend? path)

end Place

/-- The element that is reached by going from child to child. -/
def Element.descend? : Element → List Nat → Option Element
  | e, [] => some e
  | e, i :: path => e.children[i]?.bind (·.descend? path)

/-- Going down two paths is going down one after the other. -/
theorem Element.descend?_append (e : Element) (path path' : List Nat) :
    e.descend? (path ++ path') = (e.descend? path).bind (·.descend? path') := by
  induction path generalizing e with
  | nil => rfl
  | cons i path ih =>
    rw [List.cons_append, descend?, descend?]
    rcases e.children[i]? with _ | child
    · rfl
    · exact ih child

namespace ElementSpec

variable {source : Option String} {scope : Scope}

/-- An element keeps its line. -/
theorem line_toElement (spec : ElementSpec) : (spec.toElement source scope).line = spec.line := by
  obtain ⟨⟩ := spec
  rw [toElement]

/-- An element comes from the source of its document. -/
theorem source_toElement (spec : ElementSpec) :
    (spec.toElement source scope).source = source := by
  obtain ⟨⟩ := spec
  rw [toElement]

/-- Children are translated one by one. -/
theorem toElements_eq_map (specs : List ElementSpec) :
    toElements source scope specs = specs.map (toElement source scope) := by
  induction specs with
  | nil => rw [toElements, List.map_nil]
  | cons spec rest ih => rw [toElements, ih, List.map_cons]

/-- The children of an element are translated inside the scope of the element. -/
theorem children_toElement (spec : ElementSpec) : (spec.toElement source scope).children =
    spec.children.map (toElement source (spec.toElement source scope).scope) := by
  obtain ⟨⟩ := spec
  rw [toElement, toElements_eq_map]

/-- The bindings of an element hide those around it. -/
theorem module?_toElement (spec : ElementSpec) (qualifier : String) :
    (spec.toElement source scope).scope.module? qualifier =
      (spec.bindings.find? qualifier).or (scope.module? qualifier) := by
  obtain ⟨name, value, line, bindings, children⟩ := spec
  rw [toElement]
  dsimp only
  split
  · next hempty => rw [bindings.find?_of_isEmpty hempty, Option.none_or]
  · exact scope.module?_bindAll bindings qualifier

end ElementSpec

/-! ## The translation -/

namespace DocumentSpec

variable {spec : DocumentSpec} {p : Place} {e : Element}

/-- An element says what is written at a place, and its qualifiers mean what they mean there. -/
structure Renders (spec : DocumentSpec) (p : Place) (e : Element) : Prop where
  name : e.name = p.here.name
  value : e.value = p.here.value
  line : e.line = p.here.line
  children : e.children.length = p.here.children.length
  source : e.source = spec.source
  home : e.scope.home = spec.effectiveHome
  module? : ∀ qualifier, e.scope.module? qualifier = spec.visible? p.within qualifier

/-- An element is the translation of what is written at a place, inside of what encloses it. -/
def Translates (spec : DocumentSpec) (p : Place) (e : Element) : Prop :=
  ∃ scope : Scope, e = p.here.toElement spec.source scope ∧ scope.home = spec.effectiveHome ∧
    ∀ qualifier, scope.module? qualifier = spec.visible? p.around qualifier

/-- The root of a document is translated at its place. -/
theorem translates_toElement (spec : DocumentSpec) :
    spec.Translates ⟨spec.root, []⟩ spec.toElement :=
  ⟨spec.scope, rfl, rfl, spec.module?_scope⟩

namespace Translates

/-- An element that is the translation of a place says what is written there. -/
theorem renders (h : spec.Translates p e) : spec.Renders p e := by
  obtain ⟨scope, rfl, hhome, hmodule⟩ := h
  refine ⟨p.here.name_toElement, p.here.value_toElement, p.here.line_toElement, ?_,
    p.here.source_toElement, p.here.home_toElement.trans hhome, fun qualifier => ?_⟩
  · rw [p.here.children_toElement, List.length_map]
  · rw [p.here.module?_toElement, hmodule, visible?, visible?, Place.within, List.findSome?_cons]
    rcases p.here.bindings.find? qualifier with _ | module
    · rw [Option.none_or]
    · rfl

/-- The children of an element are translations of what is written inside of its place. -/
theorem child (h : spec.Translates p e) (i : Nat) :
    Option.Rel spec.Translates (p.child? i) e.children[i]? := by
  have hrenders := h.renders
  obtain ⟨scope, rfl, hhome, hmodule⟩ := h
  rw [p.here.children_toElement, List.getElem?_map, Place.child?]
  rcases p.here.children[i]? with _ | inner
  · exact .none
  · exact .some ⟨_, rfl, hrenders.home, hrenders.module?⟩

/-- Going from child to child stays with the translations, or leads nowhere on either side. -/
theorem descend (h : spec.Translates p e) (path : List Nat) :
    Option.Rel spec.Translates (p.descend? path) (e.descend? path) := by
  induction path generalizing p e with
  | nil => exact .some h
  | cons i path ih => exact (h.child i).bind fun _ _ hchild => ih hchild

end Translates

/-- A document is translated faithfully.  Whatever way is taken from its root, there is an element
exactly where something is written, and the element renders what is written there, with the
qualifiers that are visible there. -/
theorem renders_toElement (spec : DocumentSpec) (path : List Nat) :
    Option.Rel spec.Renders (Place.descend? ⟨spec.root, []⟩ path)
      (spec.toElement.descend? path) :=
  (spec.translates_toElement.descend path).imp fun _ _ h => h.renders

end DocumentSpec
end StatementForest
