import StatementForest.Collection.Dictionary
import StatementForest.Collection.Roll
import StatementForest.Extension.Rule

/-!
# Suppliers of extension classes

A supplier knows the extensions of some modules.  Several suppliers are asked in
order, and the first one that knows an extension provides its class.

Current gaps:

- A supplier is a table.  Suppliers that compute their answers are left out.
-/

namespace StatementForest

/-- A table of extension classes. -/
structure Supplier where
  name : String
  classes : Roll Key ExtensionClass := {}

namespace Supplier

/-- Know an extension by its rule, in place of what was known under its key. -/
def withRule (s : Supplier) (rule : ExtensionRule) : Supplier :=
  { s with classes := s.classes.insert rule.key (.ruled rule) }

/-- Know an extension under a key, without expecting anything of it. -/
def withGeneric (s : Supplier) (key : Key) : Supplier :=
  { s with classes := s.classes.insert key .generic }

/-- The class of an extension, if the supplier knows it. -/
def find? (s : Supplier) (key : Key) : Option ExtensionClass :=
  s.classes.find? key

/-- The names that the supplier knows in each module, in increasing order. -/
def handled (s : Supplier) : Dictionary (List String) :=
  s.classes.keys.foldl
    (fun d key =>
      let names := (d.find? key.owner).getD []
      d.insert key.owner ((names ++ [key.name]).mergeSort (· ≤ ·)))
    Dictionary.empty

end Supplier

/-- Suppliers in the order in which they are asked. -/
structure Suppliers where
  members : List Supplier := []

namespace Suppliers

/-- The first supplier that knows an extension, with its class. -/
def findFrom (key : Key) (index : Nat) : List Supplier → Option (Nat × ExtensionClass)
  | [] => none
  | s :: rest =>
    match s.find? key with
    | some c => some (index, c)
    | none => findFrom key (index + 1) rest

/-- The place of the first supplier that knows an extension, with its class. -/
def resolve? (s : Suppliers) (key : Key) : Option (Nat × ExtensionClass) :=
  findFrom key 0 s.members

/-- Add the names that are not there yet. -/
def addNames (known names : List String) : List String :=
  names.foldl (fun known name => if known.contains name then known else known ++ [name]) known

/-- The names known in each module, those of earlier suppliers first. -/
def handled (s : Suppliers) : Dictionary (List String) :=
  s.members.foldl
    (fun merged supplier =>
      supplier.handled.entries.foldl
        (fun merged (module, names) =>
          merged.insert module (addNames ((merged.find? module).getD []) names))
        merged)
    Dictionary.empty

end Suppliers

end StatementForest
