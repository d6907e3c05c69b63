/-!
# Lines of TOML text

Blanks separate the parts of a line.  A comment runs to the end of its line, and a
carriage return stands only in front of a line feed.

Main results:

- `Toml.skipSpace_suffix`: what is left of a text that was skipped is its end.
-/

namespace StatementForest
namespace Toml

/-- The characters that separate tokens within a line. -/
def isBlank (c : Char) : Bool := c == ' ' || c == '\t'

/-- Drop the blanks at the front. -/
def skipBlanks (cs : List Char) : List Char := cs.dropWhile isBlank

/-- The characters that strings and comments may hold as they are. -/
def isAllowed (c : Char) : Bool :=
  c == '\t' || (0x20 ≤ c.toNat && c.toNat != 0x7f)

/-- Drop the blanks and line breaks at the front. -/
def skipBlankLines : List Char → List Char
  | '\r' :: '\n' :: cs => skipBlankLines cs
  | c :: cs => if c = '\n' || isBlank c then skipBlankLines cs else c :: cs
  | [] => []

/-- Skip blanks, line breaks and comments, up to the first character that can stand
in none of them. -/
def skipSpace (inComment : Bool) : List Char → List Char
  | [] => []
  | '\r' :: '\n' :: cs => skipSpace false cs
  | c :: cs =>
    if c = '\n' then skipSpace false cs
    else if inComment then if isAllowed c then skipSpace true cs else c :: cs
    else if isBlank c then skipSpace false cs
    else if c = '#' then skipSpace true cs
    else c :: cs

/-- Nothing but what is at the front of a text is skipped. -/
theorem skipSpace_suffix (inComment : Bool) (cs : List Char) : skipSpace inComment cs <:+ cs := by
  fun_induction skipSpace inComment cs with
  | case1 => exact List.suffix_refl _
  | case2 _ cs ih => exact ih.trans ((List.suffix_cons _ _).trans (List.suffix_cons _ _))
  | case5 => exact List.suffix_refl _
  | case8 => exact List.suffix_refl _
  | _ => next ih => exact ih.trans (List.suffix_cons _ _)

/-- The text behind the line break at the front, if there is one. -/
def afterBreak? : List Char → Option (List Char)
  | '\n' :: rest => some rest
  | '\r' :: '\n' :: rest => some rest
  | _ => none

/-- The text behind the current line, when nothing but a comment follows in it. -/
def endOfLine (cs : List Char) : Option (List Char) :=
  let rest :=
    match skipBlanks cs with
    | '#' :: comment => comment.dropWhile isAllowed
    | rest => rest
  if rest.isEmpty then some [] else afterBreak? rest

end Toml
end StatementForest
