import StatementForest.Data.Json.Printer

/-!
# Writing TOML text

A record is written as one assignment a line.  Members that are records
themselves follow as tables, so that every assignment belongs to the table in
front of it.
-/

namespace StatementForest
namespace Toml

mutual

/-- A value within a line. -/
def inline : Data → String
  | .list items => "[" ++ ", ".intercalate (inlineAll items) ++ "]"
  | value => Json.compact value

/-- Several values within a line. -/
def inlineAll : List Data → List String
  | [] => []
  | item :: items => inline item :: inlineAll items

end

/-- An assignment, unless the value is a record. -/
def assignment? (member : String × Data) : Option String :=
  match member.2 with
  | .record _ => none
  | value => some (member.1 ++ " = " ++ inline value ++ "\n")

/-- A table, if the value is a record. -/
def table? (member : String × Data) : Option String :=
  match member.2 with
  | .record members =>
    some ("\n[" ++ member.1 ++ "]\n" ++ String.join (members.filterMap assignment?))
  | _ => none

/-- A record whose members are records of scalars and lists, or such values. -/
def render (members : List (String × Data)) : String :=
  String.join (members.filterMap assignment?) ++ String.join (members.filterMap table?)

end Toml
end StatementForest
