import StatementForest.Data.Json.Printer

/-!
# Writing YAML text

A value is written over several lines, with an indentation of two spaces below a
record.  Texts that would be read as something else stand in quotes.
-/

namespace StatementForest
namespace Yaml

/-- The words that stand for a truth value or nothing. -/
def reservedWords : List String :=
  ["true", "false", "null", "True", "False", "Null", "TRUE", "FALSE", "NULL"]

/-- Whether a text stands for itself without quotes. -/
def isSafe (s : String) : Bool :=
  s.toList.head?.any Char.isAlpha &&
    s.toList.all (fun c => c.isAlphanum || c == '_' || c == '-' || c == '.') &&
    !reservedWords.contains s

/-- A scalar within a line. -/
def scalar : Data → String
  | .text s => if isSafe s then s else Json.quote s
  | .plain s => s
  | value => Json.compact value

mutual

/-- The lines of a value below a key. -/
def lines : Data → List String
  | .record members => memberLines members
  | .list items => itemLines items
  | value => [scalar value]

/-- The lines of the members of a record. -/
def memberLines : List (String × Data) → List String
  | [] => []
  | (name, .record (m :: ms)) :: members =>
    (name ++ ":") :: (lines (.record (m :: ms))).map ("  " ++ ·) ++ memberLines members
  | (name, .list (i :: is)) :: members =>
    (name ++ ":") :: lines (.list (i :: is)) ++ memberLines members
  | (name, value) :: members => (name ++ ": " ++ scalar value) :: memberLines members

/-- The lines of the items of a list. -/
def itemLines : List Data → List String
  | [] => []
  | item :: items => ("- " ++ scalar item) :: itemLines items

end

/-- A value as a text. -/
def render (value : Data) : String := String.join ((lines value).map (· ++ "\n"))

end Yaml
end StatementForest
