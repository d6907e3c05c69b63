import StatementForest.Data.Basic
import StatementForest.Finding.Basic
import StatementForest.Store.Basic

/-!
# The written form of statements

Kept values are written as data of the same shape, a shared handle as a record of
its own.  A statement is written as a record of everything the store knows of it.

Main results:

- `CustomValue.ofData?_toData`: a kept value that was written is read back.
-/

namespace StatementForest
namespace CustomValue

mutual

/-- Write a kept value. -/
def toData : CustomValue → Data
  | .text s => .text s
  | .bool b => .bool b
  | .int i => .integer i
  | .list items => .list (listToData items)
  | .shared handle => .record [("shared", .integer handle)]

/-- Write several kept values. -/
def listToData : List CustomValue → List Data
  | [] => []
  | value :: rest => toData value :: listToData rest

end

mutual

/-- Read a kept value. -/
def ofData? : Data → Option CustomValue
  | .text s => some (.text s)
  | .bool b => some (.bool b)
  | .integer i => some (.int i)
  | .list items => (listOfData? items).map .list
  | .record [("shared", .integer handle)] => some (.shared handle)
  | _ => none

/-- Read several kept values. -/
def listOfData? : List Data → Option (List CustomValue)
  | [] => some []
  | d :: rest => do return (← ofData? d) :: (← listOfData? rest)

end

mutual

/-- A custom value is read back. -/
theorem ofData?_toData (value : CustomValue) : ofData? value.toData = some value := by
  match value with
  | .text _ | .bool _ | .int _ | .shared _ => rfl
  | .list items => simp [toData, ofData?, listOfData?_listToData items]

/-- A list of custom values is read back. -/
theorem listOfData?_listToData (items : List CustomValue) :
    listOfData? (listToData items) = some items := by
  match items with
  | [] => rfl
  | value :: rest =>
    simp [listToData, listOfData?, ofData?_toData value, listOfData?_listToData rest]

end

end CustomValue

namespace Variant

/-- Write what an extension is; nothing for a core statement. -/
def toData : Variant → Data
  | .core _ => .null
  | .extension supplier c =>
    .record [("tag", .text c.tag), ("supplier", .ofNat? supplier)]

end Variant

namespace Node

/-- Write everything the store knows of a statement. -/
def toData (id : NodeId) (n : Node) : Data :=
  .record [("id", .ofNat id.index), ("key", .text n.key.render),
    ("core", .ofOption? (n.keyword?.map Keyword.text)), ("extension", n.variant.toData),
    ("name", .text n.name), ("argument", .ofOption? n.element.value),
    ("parent", .ofNat? (n.parent.map (·.index))), ("root", .ofNat n.root.index),
    ("children", .list (n.children.map fun child => .ofNat child.index)),
    ("namespace", .ofOption? n.namespaceUri), ("status", .text n.status.text),
    ("conformance", .ofOption? (n.conformance.map Conformance.text)),
    ("config", .bool n.config), ("order", .ofNat? n.order),
    ("data", .record (n.data.entries.map fun e => (e.1, e.2.toData))),
    ("findings", .ofTexts (n.findings.map Finding.render))]

end Node

end StatementForest
