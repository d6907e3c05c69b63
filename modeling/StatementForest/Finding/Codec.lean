import StatementForest.Data.Read
import StatementForest.Finding.Basic

/-!
# The written form of findings

A finding is a record of its target, its kind and its message.  The target says
by its `type` what it is; the target of an element holds the fields of the
element next to its type.  A list stands for a target too: its type comes first, and
then the values of its fields.
-/

namespace StatementForest
namespace Origin

/-- Read an origin from the members of a record. -/
def ofMembers? (members : List (String × Data)) : Option Origin := do
  return {
    source := ← Data.optional? Data.asText? members "source"
    name := ← Data.required? Data.asText? members "name"
    line := ← Data.optional? Data.asCount? members "line" }

/-- Read an origin. -/
def ofData? (d : Data) : Option Origin := do
  ofMembers? (← d.asRecord? .json ["source", "name", "line"] 3)

/-- The fields of an origin. -/
def toMembers (o : Origin) : List (String × Data) :=
  [("source", .ofOption? o.source), ("name", .text o.name), ("line", .ofNat? o.line)]

/-- Write an origin. -/
def toData (o : Origin) : Data := .record o.toMembers

end Origin

namespace Subject

/-- The type of a target, and the data that its other fields are read from. -/
def typeOf? : Data → Option (Data × Data)
  | .record members => (Data.required? some members "type").map (·, .record members)
  | .list (type :: items) => some (type, .list items)
  | _ => none

/-- Read the target of a finding. -/
def ofData? (d : Data) : Option Subject := do
  let (type, fields) ← typeOf? d
  match ← type.asText? with
  | "statement" =>
    let members ← fields.asRecord? .json ["node", "element"] 2
    let node ← Data.required? Data.asCount? members "node"
    let origin ← Data.required? Origin.ofData? members "element"
    return .statement ⟨node⟩ origin
  | "element" => return .element (← Origin.ofData? fields)
  | "general" =>
    let _ ← fields.asRecord? .json [] 0
    return .general
  | _ => none

/-- Write the target of a finding. -/
def toData : Subject → Data
  | .statement node origin =>
    .record [("type", .text "statement"), ("node", .ofNat node.index),
      ("element", origin.toData)]
  | .element origin => .record (("type", .text "element") :: origin.toMembers)
  | .general => .record [("type", .text "general")]

end Subject

namespace Finding

/-- Read a finding. -/
def ofData? (d : Data) : Option Finding := do
  let members ← d.asRecord? .json ["target", "kind", "message"] 3
  let subject ← Data.required? Subject.ofData? members "target"
  let kind ← Data.required? (Data.asWord? .json FindingKind.ofText?) members "kind"
  let message ← Data.required? Data.asText? members "message"
  return { subject, kind, message }

/-- Write a finding. -/
def toData (f : Finding) : Data :=
  .record [("target", f.subject.toData), ("kind", .text f.kind.text),
    ("message", .text f.message)]

end Finding

end StatementForest
