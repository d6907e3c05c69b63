import StatementForest.Data.Basic

/-!
# Reading JSON text

A strict reader: no comments, no trailing commas, no text after the value and no
raw control characters in strings.  Strings with unpaired surrogates, and lists and
records that are nested too deep, are well formed, but nobody can read them.

Current gaps:

- No theorem relates the reader to the printer.  Round trips are shown for data, and not for
  texts.
-/

namespace StatementForest
namespace Json

/-- The characters that may stand between tokens. -/
def isSpace (c : Char) : Bool :=
  c == ' ' || c == '\t' || c == '\n' || c == '\r'

/-- Drop the spaces at the front. -/
def skipSpace (cs : List Char) : List Char := cs.dropWhile isSpace

/-- The value of a hexadecimal digit. -/
def hexDigit? (c : Char) : Option Nat :=
  if '0' ≤ c && c ≤ '9' then some (c.toNat - '0'.toNat)
  else if 'a' ≤ c && c ≤ 'f' then some (c.toNat - 'a'.toNat + 10)
  else if 'A' ≤ c && c ≤ 'F' then some (c.toNat - 'A'.toNat + 10)
  else none

/-- The code unit written by four hexadecimal digits. -/
def codeUnit? (a b c d : Char) : Option Nat := do
  let a ← hexDigit? a
  let b ← hexDigit? b
  let c ← hexDigit? c
  let d ← hexDigit? d
  return ((a * 16 + b) * 16 + c) * 16 + d

/-- The first half of a surrogate pair. -/
def isHighSurrogate (n : Nat) : Bool := 0xd800 ≤ n && n ≤ 0xdbff

/-- The second half of a surrogate pair. -/
def isLowSurrogate (n : Nat) : Bool := 0xdc00 ≤ n && n ≤ 0xdfff

/-- The character of a surrogate pair. -/
def ofSurrogates (high low : Nat) : Char :=
  Char.ofNat (0x10000 + (high - 0xd800) * 0x400 + (low - 0xdc00))

/-- The character a one-letter escape stands for. -/
def simpleEscape? : Char → Option Char
  | '"' => some '"'
  | '\\' => some '\\'
  | '/' => some '/'
  | 'b' => some '\x08'
  | 'f' => some '\x0c'
  | 'n' => some '\n'
  | 'r' => some '\r'
  | 't' => some '\t'
  | _ => none

/-- A code unit in front of what was read, the last one first.  The second half of a
surrogate pair joins the first half. -/
def addUnit (unit : Nat) (units : List Nat) : List Nat :=
  match units with
  | high :: rest =>
    if isHighSurrogate high && isLowSurrogate unit then
      (ofSurrogates high unit).toNat :: rest
    else unit :: units
  | [] => [unit]

/-- The text of some code points, the last one first, if all of them are characters. -/
def ofReversed? (units : List Nat) : Option String :=
  (units.reverse.mapM fun n : Nat =>
    if h : n.isValidChar then some (Char.ofNatAux n h) else none).map String.ofList

/-- Read the rest of a string behind its opening quote: its text, if it has one, and
what follows the closing quote.  `read` holds code points and halves of surrogate
pairs, the last one first. -/
def readString (read : List Nat) : List Char → Option (Option String × List Char)
  | [] => none
  | '"' :: rest => some (ofReversed? read, rest)
  | '\\' :: 'u' :: a :: b :: c :: d :: rest =>
    match codeUnit? a b c d with
    | some n => readString (addUnit n read) rest
    | none => none
  | '\\' :: c :: rest =>
    match simpleEscape? c with
    | some c => readString (c.toNat :: read) rest
    | none => none
  | c :: rest => if c.toNat < 0x20 then none else readString (c.toNat :: read) rest

/-- The ASCII digits at the front and what follows them. -/
def spanDigits (cs : List Char) : List Char × List Char :=
  cs.span Char.isDigit

/-- Read the fraction of a number, if it has one. -/
def readFraction : List Char → Option (List Char × List Char)
  | '.' :: cs =>
    match spanDigits cs with
    | ([], _) => none
    | (digits, rest) => some ('.' :: digits, rest)
  | cs => some ([], cs)

/-- Read the digits of an exponent behind its mark. -/
def readExponentDigits (mark cs : List Char) : Option (List Char × List Char) :=
  match spanDigits cs with
  | ([], _) => none
  | (digits, rest) => some (mark ++ digits, rest)

/-- Read the exponent of a number, if it has one. -/
def readExponent : List Char → Option (List Char × List Char)
  | e :: cs =>
    if e = 'e' || e = 'E' then
      match cs with
      | '+' :: cs => readExponentDigits [e, '+'] cs
      | '-' :: cs => readExponentDigits [e, '-'] cs
      | cs => readExponentDigits [e] cs
    else some ([], e :: cs)
  | [] => some ([], [])

/-- Read a number that has no leading zero, and tell integers from the others. -/
def readNumber (cs : List Char) : Option (Data × List Char) := do
  let negative := cs.head? = some '-'
  let (digits, rest) := spanDigits (if negative then cs.tail else cs)
  if digits.isEmpty || (digits.head? = some '0' && digits.length > 1) then none
  let (fraction, rest) ← readFraction rest
  let (exponent, rest) ← readExponent rest
  let magnitude := (String.ofList digits).toNat?.getD 0
  if fraction.isEmpty && exponent.isEmpty && !(negative && magnitude = 0) then
    return (.integer (if negative then -(magnitude : Int) else magnitude), rest)
  else
    let sign := if negative then ['-'] else []
    return (.decimal (String.ofList (sign ++ digits ++ fraction ++ exponent)), rest)

/-- Members as a record, if all of their names can be read. -/
def recordOf (depth : Nat) (members : List (Option String × Data)) : Data :=
  match members.mapM fun (name, value) => name.map (·, value) with
  | some members => .recordWithin depth members
  | none => .unreadable

mutual

/-- Read one value.  `depth` bounds the nesting of what can be read and `fuel` the
length. -/
def readValue (fuel depth : Nat) (cs : List Char) : Option (Data × List Char) :=
  match fuel with
  | 0 => none
  | fuel + 1 =>
    match cs with
    | '"' :: rest => (readString [] rest).map fun (s, rest) =>
      ((s.map Data.text).getD .unreadable, rest)
    | '[' :: rest =>
      match skipSpace rest with
      | ']' :: rest => some (.listWithin depth [], rest)
      | rest => (readItems fuel (depth - 1) rest).map fun (items, rest) =>
        (.listWithin depth items, rest)
    | '\x7b' :: rest =>
      match skipSpace rest with
      | '\x7d' :: rest => some (.recordWithin depth [], rest)
      | rest => (readMembers fuel (depth - 1) rest).map fun (members, rest) =>
        (recordOf depth members, rest)
    | 'n' :: 'u' :: 'l' :: 'l' :: rest => some (.null, rest)
    | 't' :: 'r' :: 'u' :: 'e' :: rest => some (.bool true, rest)
    | 'f' :: 'a' :: 'l' :: 's' :: 'e' :: rest => some (.bool false, rest)
    | cs => readNumber cs

/-- Read the items of a list up to its closing bracket. -/
def readItems (fuel depth : Nat) (cs : List Char) : Option (List Data × List Char) :=
  match fuel with
  | 0 => none
  | fuel + 1 =>
    match readValue fuel depth cs with
    | none => none
    | some (item, rest) =>
      match skipSpace rest with
      | ']' :: rest => some ([item], rest)
      | ',' :: rest =>
        (readItems fuel depth (skipSpace rest)).map fun (items, rest) => (item :: items, rest)
      | _ => none

/-- Read the members of a record up to its closing brace. -/
def readMembers (fuel depth : Nat) (cs : List Char) :
    Option (List (Option String × Data) × List Char) :=
  match fuel with
  | 0 => none
  | fuel + 1 =>
    match cs with
    | '"' :: rest =>
      match readString [] rest with
      | none => none
      | some (name, rest) =>
        match skipSpace rest with
        | ':' :: rest =>
          match readValue fuel depth (skipSpace rest) with
          | none => none
          | some (value, rest) =>
            match skipSpace rest with
            | '\x7d' :: rest => some ([(name, value)], rest)
            | ',' :: rest =>
              (readMembers fuel depth (skipSpace rest)).map fun (members, rest) =>
                ((name, value) :: members, rest)
            | _ => none
        | _ => none
    | _ => none

end

/-- Read a text that holds one value, of which at most `depth` nested lists and records
can be read. -/
def parseWithin (depth : Nat) (s : String) : Option Data :=
  let cs := s.toList
  match readValue (cs.length + 1) depth (skipSpace cs) with
  | some (value, rest) => if (skipSpace rest).isEmpty then some value else none
  | none => none

/-- The deepest nesting of lists and records in a file. -/
def nestingLimit : Nat := 127

/-- Read a text that holds one value. -/
def parse (s : String) : Option Data := parseWithin nestingLimit s

end Json
end StatementForest
