import StatementForest.Text.Blank

/-!
# Tokens of feature conditions

A condition is cut at blank characters and parentheses.  The words between them
are the three operators and the names of features.
-/

namespace StatementForest
namespace Condition

/-- One token of a condition. -/
inductive Token where
  | opening
  | closing
  | and
  | or
  | not
  | name (text : String)
  deriving DecidableEq, Repr

namespace Token

/-- A token as it is written. -/
def render : Token → String
  | .opening => "("
  | .closing => ")"
  | .and => "and"
  | .or => "or"
  | .not => "not"
  | .name text => text

/-- The token of a word without blanks and parentheses. -/
def ofWord (word : List Char) : Token :=
  if word = ['a', 'n', 'd'] then .and
  else if word = ['o', 'r'] then .or
  else if word = ['n', 'o', 't'] then .not
  else .name (String.ofList word)

/-- The tokens of a word: one, or none when the word is empty. -/
def ofWord? (word : List Char) : List Token :=
  if word.isEmpty then [] else [ofWord word]

/-- Scan the tokens of a text behind the beginning of a word. -/
def scan (word : List Char) : List Char → List Token
  | [] => ofWord? word
  | c :: cs =>
    if c = '(' then ofWord? word ++ .opening :: scan [] cs
    else if c = ')' then ofWord? word ++ .closing :: scan [] cs
    else if Text.isBlank c then ofWord? word ++ scan [] cs
    else scan (word ++ [c]) cs

/-- The tokens of a condition. -/
def ofText (s : String) : List Token := scan [] s.toList

end Token

end Condition
end StatementForest
