import StatementForest.Extension.Supplier
import StatementForest.Store.Mutation

/-!
# Statements for elements

A name without a qualifier has to be a keyword of the core language.  A
qualified name is the use of an extension: its qualifier is resolved where the
element was written, and the suppliers are asked for the class of the extension.
-/

namespace StatementForest

/-- What a document element is turned into. -/
structure Resolution where
  key : Key
  variant : Variant
  deriving DecidableEq

/-- The finding about an element that is no statement of the core language. -/
def unknownStatement (e : Element) : Finding where
  subject := .element e.origin
  kind := .invalidSyntax
  message := "Not a valid YANG statement: " ++ e.name

/-- The finding about an extension whose qualifier is not bound. -/
def unboundQualifier (e : Element) (qualifier : String) : Finding where
  subject := .element e.origin
  kind := .unresolvablePrefix
  message := "Prefix '" ++ qualifier ++ "' for the extension statement not resolvable."

/-- The key and the variant of the statement for an element. -/
def Suppliers.resolveElement (s : Suppliers) (e : Element) : Except Finding Resolution :=
  match e.splitName with
  | (none, name) =>
    match Keyword.ofText? name with
    | some k => .ok ⟨Key.core name, .core k⟩
    | none => .error (unknownStatement e)
  | (some qualifier, name) =>
    match e.scope.module? qualifier with
    | none => .error (unboundQualifier e qualifier)
    | some module =>
      let key : Key := ⟨module, name⟩
      match s.resolve? key with
      | some (index, c) => .ok ⟨key, .extension (some index) c⟩
      | none => .ok ⟨key, .extension none .generic⟩

/-- The finding about an element that is no statement is about no statement. -/
theorem Suppliers.node?_of_resolveElement_eq_error {suppliers : Suppliers} {e : Element}
    {f : Finding} (h : suppliers.resolveElement e = .error f) : f.node? = none := by
  rw [resolveElement] at h
  split at h
  · split at h
    · cases h
    · cases h
      rfl
  · split at h
    · cases h
      rfl
    · dsimp only at h
      split at h <;> cases h

/-- The outcome of turning an element into a statement. -/
inductive Instantiation where
  | created (id : NodeId)
  /-- No statement was made, for the reason that the finding gives. -/
  | rejected (finding : Finding)

/-- Make a statement for an element, below a parent or on its own. -/
def StoreM.instantiate (suppliers : Suppliers) (e : Element) (parent? : Option NodeId)
    (root : RootId) : StoreM Instantiation := do
  match suppliers.resolveElement e with
  | .error finding => return .rejected finding
  | .ok r =>
    let id ← modifyGet
      (·.alloc { key := r.key, variant := r.variant, element := e, root })
    match parent? with
    | some parent => appendChild parent id
    | none => pure ()
    return .created id

end StatementForest
