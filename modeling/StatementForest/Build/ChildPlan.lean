import StatementForest.Build.Argument
import StatementForest.Document.Element
import StatementForest.Grammar.Basic

/-!
# What becomes of the children of an element

The grammar decides which children of a core element become statements and in
which order: first those that must occur once, then those that must occur, then
those that may occur once, then the others, and each group in document order.
Extensions come last.  What the grammar does not foresee is complained about.

Main results:

- `mem_of_extract_mem_grammarSteps`, `mem_of_extract_mem_extensionSteps`,
  `mem_of_extract_mem_freeSteps`: only children of the element become statements
  below it.
-/

namespace StatementForest

/-- One step of taking over the children of an element. -/
inductive ChildStep where
  /-- Make a statement of a child. -/
  | extract (child : Element)
  /-- Pass over a child whose name may occur only once. -/
  | repeated (name : String)

/-- The first child of each name; the names in `seen` have occurred before. -/
def singletonSteps (names : List String) (seen : List String) : List Element → List ChildStep
  | [] => []
  | child :: rest =>
    if names.contains child.name then
      if seen.contains child.name then
        .repeated child.name :: singletonSteps names seen rest
      else .extract child :: singletonSteps names (child.name :: seen) rest
    else singletonSteps names seen rest

/-- Every child with one of the names. -/
def multipleSteps (names : List String) (children : List Element) : List ChildStep :=
  (children.filter fun child => names.contains child.name).map .extract

/-- Every child with a qualified name. -/
def extensionSteps (children : List Element) : List ChildStep :=
  (children.filter (·.isQualified)).map .extract

/-- The steps for the children that the grammar foresees. -/
def grammarSteps (c : Cardinalities) (children : List Element) : List ChildStep :=
  singletonSteps c.mandatorySingleton [] children ++
    multipleSteps c.mandatoryMultiple children ++
    singletonSteps c.optionalSingleton [] children ++
    multipleSteps c.optionalMultiple children

/-- The steps for the children of an extension: those of the core language first. -/
def freeSteps (children : List Element) : List ChildStep :=
  (children.filter (!·.isQualified)).map .extract ++ extensionSteps children

/-- Only children are extracted for names that may occur once. -/
theorem mem_of_extract_mem_singletonSteps {names seen : List String} {children : List Element}
    {child : Element} (h : .extract child ∈ singletonSteps names seen children) :
    child ∈ children := by
  induction children generalizing seen with
  | nil => simp [singletonSteps] at h
  | cons e rest ih =>
    simp only [singletonSteps] at h
    split at h
    · split at h
      · simp only [List.mem_cons, reduceCtorEq, false_or] at h
        exact List.mem_cons_of_mem _ (ih h)
      · simp only [List.mem_cons, ChildStep.extract.injEq] at h
        rcases h with rfl | h
        · exact List.mem_cons_self
        · exact List.mem_cons_of_mem _ (ih h)
    · exact List.mem_cons_of_mem _ (ih h)

/-- Only children that pass a test are extracted by it. -/
theorem mem_of_extract_mem_filter {p : Element → Bool} {children : List Element}
    {child : Element} (h : .extract child ∈ (children.filter p).map ChildStep.extract) :
    child ∈ children := by
  simp only [List.mem_map, List.mem_filter, ChildStep.extract.injEq, exists_eq_right] at h
  exact h.1

/-- Only children are extracted as extensions. -/
theorem mem_of_extract_mem_extensionSteps {children : List Element} {child : Element}
    (h : .extract child ∈ extensionSteps children) : child ∈ children :=
  mem_of_extract_mem_filter h

/-- Only children are extracted by the steps that the grammar asks for. -/
theorem mem_of_extract_mem_grammarSteps {c : Cardinalities} {children : List Element}
    {child : Element} (h : .extract child ∈ grammarSteps c children) : child ∈ children := by
  simp only [grammarSteps, List.mem_append] at h
  rcases h with ((h | h) | h) | h
  · exact mem_of_extract_mem_singletonSteps h
  · exact mem_of_extract_mem_filter h
  · exact mem_of_extract_mem_singletonSteps h
  · exact mem_of_extract_mem_filter h

/-- Only children are extracted by the free steps. -/
theorem mem_of_extract_mem_freeSteps {children : List Element} {child : Element}
    (h : .extract child ∈ freeSteps children) : child ∈ children := by
  simp only [freeSteps, List.mem_append] at h
  rcases h with h | h
  · exact mem_of_extract_mem_filter h
  · exact mem_of_extract_mem_extensionSteps h

/-! ### Complaints -/

/-- The message about a child that occurs more often than it may. -/
def repeatedMessage (child parent : String) : String :=
  "Child statement '" ++ child ++ "' cannot exist more than once under '" ++ parent ++ "'."

/-- The messages about the children that an element lacks. -/
def missingMessages (c : Cardinalities) (e : Element) : List String :=
  (c.mandatorySingleton.filter (!e.hasChild ·)).map
      (fun name => "Statement '" ++ name ++ "' required under '" ++ e.name ++ "'.") ++
    (c.mandatoryMultiple.filter (!e.hasChild ·)).map
      (fun name =>
        "Statement '" ++ name ++ "' required at least once under '" ++ e.name ++ "'.")

/-- What is wrong with a child of a name that the grammar does not foresee. -/
def unexpectedFault (child parent : String) : Fault :=
  if Keyword.isKeyword child then
    (.illegalChildStatement, "Statement '" ++ child ++ "' is not allowed under '" ++ parent ++ "'.")
  else (.invalidSyntax, "'" ++ child ++ "' is not part of the core YANG language.")

/-- The first child of each name that the grammar does not foresee. -/
def unexpectedChildren (c : Cardinalities) (seen : List String) : List Element → List Element
  | [] => []
  | child :: rest =>
    if child.isQualified || c.allows child.name || seen.contains child.name then
      unexpectedChildren c seen rest
    else child :: unexpectedChildren c (child.name :: seen) rest

end StatementForest
