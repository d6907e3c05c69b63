/-!
# Characters of YAML text

Which characters may occur in a text, and which of them separate, end or mark its
parts.
-/

namespace StatementForest
namespace Yaml

/-- The characters that separate tokens within a line. -/
def isBlank (c : Char) : Bool := c == ' ' || c == '\t'

/-- The characters that end a line. -/
def isBreak (c : Char) : Bool :=
  c == '\n' || c == '\r' || c == '\u0085' || c == '\u2028' || c == '\u2029'

/-- The characters that a text may consist of. -/
def isAllowed (c : Char) : Bool :=
  let n := c.toNat
  c == '\n' || c == '\r' || c == '\t' || (0x20 ≤ n && n ≤ 0x7e) || n == 0x85 ||
    (0xa0 ≤ n && n ≤ 0xfffd) || 0x10000 ≤ n

/-- The mark of the byte order. -/
def byteOrderMark : Char := '\ufeff'

/-- The marks of lists and records on one line. -/
def isFlowMark (c : Char) : Bool :=
  c == ',' || c == '[' || c == ']' || c == '\x7b' || c == '\x7d'

/-- The characters that no plain scalar begins with, unless something follows them. -/
def isIndicator (c : Char) : Bool :=
  isFlowMark c ||
    ['#', '&', '*', '!', '|', '>', '\x27', '"', '%', '@', '\x60', '-', '?', ':'].contains c

/-- The characters of the names of anchors, handles and directives. -/
def isNameCharacter (c : Char) : Bool := c.isAlphanum || c == '_' || c == '-'

/-- The characters of an address.  Those that also mark lists belong to it only where
the address stands between angle brackets or in a directive. -/
def isAddressCharacter (bracketed : Bool) (c : Char) : Bool :=
  isNameCharacter c ||
    [';', '/', '?', ':', '@', '&', '=', '+', '$', '.', '%', '!', '~', '*', '\x27', '(',
      ')'].contains c ||
    (bracketed && [',', '[', ']'].contains c)

/-- Whether a token ends in front of the given characters. -/
def isBoundary (cs : List Char) : Bool :=
  match cs with
  | [] => true
  | c :: _ => isBlank c || isBreak c

/-- Whether a line starts with a mark that begins or ends a document. -/
def isMarker : List Char → Bool
  | '-' :: '-' :: '-' :: cs => isBoundary cs
  | '.' :: '.' :: '.' :: cs => isBoundary cs
  | _ => false

/-- The value of a hexadecimal digit. -/
def hexDigit? (c : Char) : Option Nat :=
  if '0' ≤ c && c ≤ '9' then some (c.toNat - '0'.toNat)
  else if 'a' ≤ c && c ≤ 'f' then some (c.toNat - 'a'.toNat + 10)
  else if 'A' ≤ c && c ≤ 'F' then some (c.toNat - 'A'.toNat + 10)
  else none

/-- The number that hexadecimal digits stand for. -/
def ofHex? (digits : List Char) : Option Nat := do
  return (← digits.mapM hexDigit?).foldl (fun n d => n * 16 + d) 0

end Yaml
end StatementForest
