import StatementForest.Text.Blank

/-!
# Identifiers

An identifier begins with an ASCII letter or an underscore and goes on with
ASCII letters, digits, underscores, dots and hyphens.  A reference is an
identifier, optionally qualified by a second one and a colon.
-/

namespace StatementForest
namespace Text

/-- The characters an identifier may begin with. -/
def isIdentifierStart (c : Char) : Bool :=
  c.isAlpha || c == '_'

/-- The characters an identifier may go on with. -/
def isIdentifierRest (c : Char) : Bool :=
  c.isAlphanum || c == '_' || c == '.' || c == '-'

/-- Identifiers as character lists. -/
def isIdentifierChars : List Char → Bool
  | [] => false
  | c :: cs => isIdentifierStart c && cs.all isIdentifierRest

/-- Whether a text is an identifier. -/
def isIdentifier (s : String) : Bool :=
  isIdentifierChars s.toList

/-- Whether a text is an identifier, or two of them joined by a colon. -/
def isReference (s : String) : Bool :=
  match splitChars ':' s.toList with
  | some (qualifier, name) => isIdentifierChars qualifier && isIdentifierChars name
  | none => isIdentifierChars s.toList

theorem colon_not_mem_of_isIdentifierChars {cs : List Char} (h : isIdentifierChars cs = true) :
    ':' ∉ cs := by
  cases cs with
  | nil => simp
  | cons c cs =>
    simp only [isIdentifierChars, Bool.and_eq_true, List.all_eq_true] at h
    intro hmem
    rcases List.mem_cons.mp hmem with rfl | hmem
    · exact absurd h.1 (by decide)
    · exact absurd (h.2 _ hmem) (by decide)

end Text
end StatementForest
