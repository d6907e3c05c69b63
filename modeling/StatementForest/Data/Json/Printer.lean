import StatementForest.Data.Basic

/-!
# Writing JSON text

Two layouts: everything on one line, or one member or item a line with an
indentation of two spaces.  Characters outside ASCII are written as they are.  There
are no tags in this format, and what nobody can read is written as null.
-/

namespace StatementForest
namespace Json

/-- A hexadecimal digit. -/
def hexDigit (n : Nat) : Char :=
  if n < 10 then Char.ofNat ('0'.toNat + n) else Char.ofNat ('a'.toNat + n - 10)

/-- One character of a string. -/
def escapeChar (c : Char) : List Char :=
  match c with
  | '"' => ['\\', '"']
  | '\\' => ['\\', '\\']
  | '\x08' => ['\\', 'b']
  | '\x0c' => ['\\', 'f']
  | '\n' => ['\\', 'n']
  | '\r' => ['\\', 'r']
  | '\t' => ['\\', 't']
  | c =>
    if c.toNat < 0x20 then
      ['\\', 'u', '0', '0', hexDigit (c.toNat / 16), hexDigit (c.toNat % 16)]
    else [c]

/-- A string between its quotes. -/
def quote (s : String) : String :=
  "\"" ++ String.ofList (s.toList.flatMap escapeChar) ++ "\""

mutual

/-- A value on one line. -/
def compact : Data → String
  | .null => "null"
  | .bool b => if b then "true" else "false"
  | .integer i => toString i
  | .decimal literal => literal
  | .text s | .plain s => quote s
  | .list items => "[" ++ ",".intercalate (compactItems items) ++ "]"
  | .record members => "\x7b" ++ ",".intercalate (compactMembers members) ++ "\x7d"
  | .tagged _ value => compact value
  | .unreadable => "null"

/-- The items of a list on one line. -/
def compactItems : List Data → List String
  | [] => []
  | item :: items => compact item :: compactItems items

/-- The members of a record on one line. -/
def compactMembers : List (String × Data) → List String
  | [] => []
  | (name, value) :: members =>
    (quote name ++ ":" ++ compact value) :: compactMembers members

end

/-- The start of a line at a nesting level. -/
def lineStart (level : Nat) : String :=
  "\n" ++ String.ofList (List.replicate (2 * level) ' ')

mutual

/-- A value with one item or member a line, at a nesting level. -/
def prettyAt (level : Nat) : Data → String
  | .null => "null"
  | .bool b => if b then "true" else "false"
  | .integer i => toString i
  | .decimal literal => literal
  | .text s | .plain s => quote s
  | .list [] => "[]"
  | .list items =>
    "[" ++ ",".intercalate (prettyItems (level + 1) items) ++ lineStart level ++ "]"
  | .record [] => "\x7b\x7d"
  | .record members =>
    "\x7b" ++ ",".intercalate (prettyMembers (level + 1) members) ++ lineStart level ++ "\x7d"
  | .tagged _ value => prettyAt level value
  | .unreadable => "null"

/-- The items of a list, a line each. -/
def prettyItems (level : Nat) : List Data → List String
  | [] => []
  | item :: items => (lineStart level ++ prettyAt level item) :: prettyItems level items

/-- The members of a record, a line each. -/
def prettyMembers (level : Nat) : List (String × Data) → List String
  | [] => []
  | (name, value) :: members =>
    (lineStart level ++ quote name ++ ": " ++ prettyAt level value) ::
      prettyMembers level members

end

/-- A value over several lines. -/
def pretty (value : Data) : String := prettyAt 0 value

end Json
end StatementForest
