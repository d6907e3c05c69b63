import StatementForest.Text.Numeral

/-!
# Dates and versions

Two fixed shapes made of digit runs: a calendar date `YYYY-MM-DD` and a version
`version.release.correction`.
-/

namespace StatementForest
namespace Text

/-- A date has four digits, a month from 01 to 12 and a day from 01 to 31. -/
def isDateChars : List Char → Bool
  | [y1, y2, y3, y4, '-', m1, m2, '-', d1, d2] =>
    [y1, y2, y3, y4, m1, m2, d1, d2].all isDigit &&
      (1 ≤ digitsValue [m1, m2] && digitsValue [m1, m2] ≤ 12) &&
      (1 ≤ digitsValue [d1, d2] && digitsValue [d1, d2] ≤ 31)
  | _ => false

/-- Whether a text is a date of the form `YYYY-MM-DD`. -/
def isDate (s : String) : Bool :=
  isDateChars s.toList

/-! ### Versions -/

/-- The three digit runs of a version. -/
structure VersionText where
  version : List Char
  release : List Char
  correction : List Char
  deriving DecidableEq, Repr

/-- Cut a character list at every dot. -/
def splitDots : List Char → List (List Char)
  | [] => [[]]
  | '.' :: cs => [] :: splitDots cs
  | c :: cs =>
    match splitDots cs with
    | [] => [[c]]
    | run :: runs => (c :: run) :: runs

/-- Read three digit runs separated by two dots. -/
def readVersion (s : String) : Option VersionText :=
  match splitDots s.toList with
  | [v, r, c] => if isDigits v && isDigits r && isDigits c then some ⟨v, r, c⟩ else none
  | _ => none

end Text
end StatementForest
