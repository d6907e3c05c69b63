import StatementForest.Data.Parse
import StatementForest.Data.Read
import StatementForest.Document.Spec

/-!
# The written form of documents

How document specifications are read from data and written as data.  Only the
name of an element and the root of a document are required.  Every field is
written, also an empty one.
-/

namespace StatementForest
namespace ElementSpec

/-- The fields of an element that were read so far. -/
structure Fields where
  name : Option String := none
  value : Option (Option String) := none
  line : Option (Option Nat) := none
  bindings : Option (Dictionary String) := none
  children : Option (List ElementSpec) := none

/-- The element of the fields; the name is required. -/
def Fields.toSpec? (f : Fields) : Option ElementSpec := do
  return {
    name := ← f.name
    value := f.value.getD none
    line := f.line.getD none
    bindings := f.bindings.getD Dictionary.empty
    children := f.children.getD [] }

/-- Read a field that was not read before. -/
def once {α : Type} (known : Option α) (read : Option α) : Option (Option α) :=
  if known.isSome then none else read.map some

/-- The names of the fields of an element. -/
def fieldNames : List String := ["name", "value", "line", "prefixes", "children"]

/-- What a reader of an element looks at. -/
def shape : Shape :=
  .record [("name", .scalar), ("value", .scalar), ("line", .scalar),
    ("prefixes", .dictionary .scalar), ("children", .list .enclosing)]

mutual

/-- Read an element of a format. -/
def ofData? (format : Format) : Data → Option ElementSpec
  | .record members => do (← readMembers format members {}).toSpec?
  | .list items =>
    if format.hasPositionalRecords then do (← readItems format fieldNames items {}).toSpec?
    else none
  | .tagged _ d => ofData? format d
  | _ => none

/-- Read the list of the children of an element. -/
def readChildren (format : Format) : Data → Option (List ElementSpec)
  | .list items => readAll format items
  | .plain "" => some []
  | .tagged _ d => readChildren format d
  | _ => none

/-- Read one field of an element after some others. -/
def readField (format : Format) (name : String) (d : Data) (f : Fields) : Option Fields :=
  if name = "name" then do return { f with name := ← once f.name d.asText? }
  else if name = "value" then do return { f with value := ← once f.value d.asOptionalText? }
  else if name = "line" then do
    return { f with line := ← once f.line (d.asOptional? Data.asCount?) }
  else if name = "prefixes" then do
    return { f with bindings := ← once f.bindings (d.asDictionary? Data.asText?) }
  else if name = "children" then do
    return { f with children := ← once f.children (readChildren format d) }
  else some f

/-- Read the members of an element after some others. -/
def readMembers (format : Format) : List (String × Data) → Fields → Option Fields
  | [], f => some f
  | (name, d) :: members, f => do
    readMembers format members (← readField format name d f)

/-- Read values as the fields with the given names. -/
def readItems (format : Format) (names : List String) :
    List Data → Fields → Option Fields
  | [], f => some f
  | d :: items, f =>
    match names with
    | [] => none
    | name :: names => do readItems format names items (← readField format name d f)

/-- Read several elements. -/
def readAll (format : Format) : List Data → Option (List ElementSpec)
  | [] => some []
  | d :: items => do
    let spec ← ofData? format d
    return spec :: (← readAll format items)

end

mutual

/-- Write an element with all of its fields. -/
def toData : ElementSpec → Data
  | ⟨name, value, line, bindings, children⟩ =>
    .record [("name", .text name), ("value", .ofOption? value), ("line", .ofNat? line),
      ("prefixes", .record (bindings.entries.map fun e => (e.1, .text e.2))),
      ("children", .list (writeAll children))]

/-- Write several elements. -/
def writeAll : List ElementSpec → List Data
  | [] => []
  | spec :: specs => toData spec :: writeAll specs

end

end ElementSpec

namespace DocumentSpec

/-- What a reader of a document looks at. -/
def shape : Shape :=
  .record [("source", .scalar), ("defaultModule", .scalar), ("prefixes", .dictionary .scalar),
    ("root", ElementSpec.shape)]

/-- Read a document of a format. -/
def ofData? (format : Format) (d : Data) : Option DocumentSpec := do
  let members ← d.asRecord? format ["source", "defaultModule", "prefixes", "root"] 4
  return {
    source := ← Data.optional? Data.asText? members "source"
    home := ← Data.optional? Data.asText? members "defaultModule"
    bindings :=
      ← Data.defaulted? (Data.asDictionary? Data.asText?) Dictionary.empty members "prefixes"
    root := ← Data.required? (ElementSpec.ofData? format) members "root" }

/-- Write a document with all of its fields. -/
def toData (spec : DocumentSpec) : Data :=
  .record [("source", .ofOption? spec.source), ("defaultModule", .ofOption? spec.home),
    ("prefixes", .record (spec.bindings.entries.map fun e => (e.1, .text e.2))),
    ("root", spec.root.toData)]

/-- Read a document of a format.  `source` names the text in a failure. -/
def ofText (format : Format) (source text : String) : Except Failure DocumentSpec :=
  match (format.parse shape text).bind (ofData? format) with
  | some spec => .ok spec
  | none => .error (.document source (.malformed "not a document"))

end DocumentSpec

end StatementForest
