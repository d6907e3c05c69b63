import StatementForest.Data.Toml.Line

/-!
# Quoted strings and keys of TOML

A string stands in double quotes, with escapes, or in single quotes, without.  Between
three quotes of a kind it may run over several lines.

Main results:

- `Toml.length_of_readKeyWithin`: how many parts a key has.
-/

namespace StatementForest
namespace Toml

/-- The value of a hexadecimal digit. -/
def hexDigit? (c : Char) : Option Nat :=
  if '0' ≤ c && c ≤ '9' then some (c.toNat - '0'.toNat)
  else if 'a' ≤ c && c ≤ 'f' then some (c.toNat - 'a'.toNat + 10)
  else if 'A' ≤ c && c ≤ 'F' then some (c.toNat - 'A'.toNat + 10)
  else none

/-- The character with a hexadecimal number. -/
def ofHex? (digits : List Char) : Option Char := do
  let n := (← digits.mapM hexDigit?).foldl (fun n d => n * 16 + d) 0
  if h : n.isValidChar then some (Char.ofNatAux n h) else none

/-- The character that a one-letter escape stands for. -/
def simpleEscape? : Char → Option Char
  | 'b' => some '\x08'
  | 't' => some '\t'
  | 'n' => some '\n'
  | 'f' => some '\x0c'
  | 'r' => some '\r'
  | 'e' => some '\x1b'
  | '"' => some '"'
  | '\\' => some '\\'
  | _ => none

/-- Read an escape behind its backslash. -/
def readEscape : List Char → Option (Char × List Char)
  | 'x' :: a :: b :: rest => (ofHex? [a, b]).map (·, rest)
  | 'u' :: a :: b :: c :: d :: rest => (ofHex? [a, b, c, d]).map (·, rest)
  | 'U' :: a :: b :: c :: d :: e :: f :: g :: h :: rest =>
    (ofHex? [a, b, c, d, e, f, g, h]).map (·, rest)
  | c :: rest => (simpleEscape? c).map (·, rest)
  | [] => none

/-! ### Strings -/

/-- Read the rest of a string on one line behind its opening double quote. -/
def readBasic (read : List Char) : (fuel : Nat) → List Char → Option (String × List Char)
  | 0, _ => none
  | fuel + 1, cs =>
    match cs with
    | [] => none
    | '"' :: rest => some (String.ofList read.reverse, rest)
    | '\\' :: rest =>
      match readEscape rest with
      | some (c, rest) => readBasic (c :: read) fuel rest
      | none => none
    | c :: rest => if isAllowed c then readBasic (c :: read) fuel rest else none

/-- Read the rest of a string without escapes behind its opening quote. -/
def readLiteral (read : List Char) : List Char → Option (String × List Char)
  | [] => none
  | c :: rest =>
    if c = '\x27' then some (String.ofList read.reverse, rest)
    else if isAllowed c then readLiteral (c :: read) rest
    else none

/-- Read the rest of a string over several lines.  Up to two quotes may stand in
front of the three that close it, line breaks are kept as they are, and a backslash at
the end of a line drops all blanks and line breaks that follow. -/
def readLong (mark : Char) (escapes : Bool) (read : List Char) :
    (fuel : Nat) → List Char → Option (String × List Char)
  | 0, _ => none
  | fuel + 1, cs =>
    let quotes := (cs.takeWhile (· == mark)).length
    if quotes ≥ 3 then
      if quotes ≤ 5 then
        some (String.ofList (List.replicate (quotes - 3) mark ++ read).reverse, cs.drop quotes)
      else none
    else
      match cs with
      | [] => none
      | '\r' :: '\n' :: rest => readLong mark escapes ('\n' :: '\r' :: read) fuel rest
      | c :: rest =>
        if c = '\\' && escapes then
          match afterBreak? (skipBlanks rest) with
          | some below => readLong mark escapes read fuel (skipBlankLines below)
          | none =>
            match readEscape rest with
            | some (c, rest) => readLong mark escapes (c :: read) fuel rest
            | none => none
        else if c = '\n' || isAllowed c then readLong mark escapes (c :: read) fuel rest
        else none

/-- Drop the line break right behind the opening of a string over several lines. -/
def dropFirstBreak (cs : List Char) : List Char := (afterBreak? cs).getD cs

/-- Read a string of any of the four styles, if there is one. -/
def readString (cs : List Char) : Option (String × List Char) :=
  match cs with
  | '"' :: '"' :: '"' :: rest => readLong '"' true [] (cs.length + 1) (dropFirstBreak rest)
  | '\x27' :: '\x27' :: '\x27' :: rest =>
    readLong '\x27' false [] (cs.length + 1) (dropFirstBreak rest)
  | '"' :: rest => readBasic [] (cs.length + 1) rest
  | '\x27' :: rest => readLiteral [] rest
  | _ => none

/-! ### Keys -/

/-- The characters of a bare key. -/
def isBare (c : Char) : Bool := c.isAlphanum || c == '_' || c == '-'

/-- Read one part of a key. -/
def readKeyPart (cs : List Char) : Option (String × List Char) :=
  match cs with
  | '"' :: rest => readBasic [] (cs.length + 1) rest
  | '\x27' :: rest => readLiteral [] rest
  | cs =>
    match cs.span isBare with
    | ([], _) => none
    | (part, rest) => some (String.ofList part, rest)

/-- The number of parts that a key may have. -/
def keyLimit : Nat := 80

/-- Read the parts of a key, of which there are at most `most`, and the blanks behind
it. -/
def readKeyWithin : (most : Nat) → List Char → Option (List String × List Char)
  | 0, _ => none
  | most + 1, cs => do
    let (part, rest) ← readKeyPart (skipBlanks cs)
    match skipBlanks rest with
    | '.' :: rest =>
      let (parts, rest) ← readKeyWithin most rest
      return (part :: parts, rest)
    | rest => return ([part], rest)

/-- A key has at least one part, and no more than it may have. -/
theorem length_of_readKeyWithin {most : Nat} {cs rest : List Char} {parts : List String}
    (h : readKeyWithin most cs = some (parts, rest)) :
    0 < parts.length ∧ parts.length ≤ most := by
  induction most generalizing cs parts rest with
  | zero => cases h
  | succ most ih =>
    rw [readKeyWithin] at h
    obtain ⟨⟨part, behind⟩, -, h⟩ := Option.bind_eq_some_iff.mp h
    dsimp only at h
    split at h
    · obtain ⟨⟨others, rest'⟩, hothers, h⟩ := Option.bind_eq_some_iff.mp h
      obtain ⟨-, hle⟩ := ih hothers
      cases h
      exact ⟨Nat.succ_pos _, Nat.succ_le_succ hle⟩
    · cases h
      exact ⟨Nat.succ_pos _, Nat.succ_le_succ (Nat.zero_le _)⟩

/-- Read a key and the blanks around it. -/
def readKey (cs : List Char) : Option (List String × List Char) := readKeyWithin keyLimit cs

end Toml
end StatementForest
