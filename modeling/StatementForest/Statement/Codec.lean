import StatementForest.Data.Read
import StatementForest.Statement.GlobalName

/-!
# The written form of names

A key is a list of the module and the name, with null for the core language.  A
global name is a record of its three parts.

Main results:

- `GlobalName.ofData?_toData`: a global name that was written is read back.
-/

namespace StatementForest
namespace Key

/-- Read a key. -/
def ofData? : Data → Option Key
  | .list [.null, name] => name.asText?.map core
  | .list [module, name] => do return ⟨← module.asText?, ← name.asText?⟩
  | _ => none

end Key

namespace GlobalName

/-- Read a global name. -/
def ofData? (d : Data) : Option GlobalName := do
  let members ← d.asMembers?
  return {
    namespaceUri := ← Data.required? Data.asText? members "namespace"
    module := ← Data.required? Data.asText? members "module"
    localName := ← Data.required? Data.asText? members "local_name" }

/-- Write a global name. -/
def toData (n : GlobalName) : Data :=
  .record [("namespace", .text n.namespaceUri), ("module", .text n.module),
    ("local_name", .text n.localName)]

/-- Write global names by the module and the name in it. -/
def renderAll (names : List GlobalName) : Data := .ofTexts (names.map render)

/-- A global name is read back with its three parts. -/
@[simp]
theorem ofData?_toData (n : GlobalName) : ofData? n.toData = some n := by
  simp [ofData?, toData, Data.asMembers?, Data.untagged, Data.required?, Data.member?]

end GlobalName

end StatementForest
