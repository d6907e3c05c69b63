import StatementForest.Data.Yaml.Cursor

/-!
# YAML scalars

A scalar is plain, quoted or a block of lines.  In plain and quoted scalars a
single line break stands for a space, and further ones stand for themselves.

Main results:

- `Yaml.Gap.fill_newlines`: what the line breaks between two words stand for.
-/

namespace StatementForest
namespace Yaml

/-- How a scalar is written. -/
inductive Style where
  | plain
  | quoted
  /-- A block whose line breaks are kept. -/
  | literal
  /-- A block whose lines are joined. -/
  | folded
  deriving DecidableEq, Repr

/-! ### Gaps between words -/

/-- What has been passed since the last visible character. -/
inductive Gap where
  /-- Blanks of one line, the last one first. -/
  | blanks (reversed : List Char)
  /-- A line break and those that follow it, the last one first.  The first one does not
  count where it is escaped. -/
  | breaks (first : Option Char) (reversed : List Char)

namespace Gap

/-- Whether a gap goes over the end of a line. -/
def isBroken : Gap → Bool
  | .blanks _ => false
  | .breaks _ _ => true

/-- Whether there is nothing in a gap. -/
def isEmpty : Gap → Bool
  | .blanks cs => cs.isEmpty
  | .breaks _ _ => false

/-- The gap with one blank more.  Blanks next to a line break do not count. -/
def blank (gap : Gap) (c : Char) : Gap :=
  match gap with
  | .blanks cs => .blanks (c :: cs)
  | gap => gap

/-- The gap with one line break more. -/
def newline (gap : Gap) (c : Char) : Gap :=
  match gap with
  | .blanks _ => .breaks (some c) []
  | .breaks first cs => .breaks first (c :: cs)

/-- What a gap stands for, the last character first. -/
def fill : Gap → List Char
  | .blanks cs => cs
  | .breaks (some '\n') [] => [' ']
  | .breaks (some '\n') cs => cs
  | .breaks first cs => cs ++ first.toList

theorem foldl_newline (first : Option Char) (cs breaks : List Char) :
    breaks.foldl newline (.breaks first cs) = .breaks first (breaks.reverse ++ cs) := by
  induction breaks generalizing cs with
  | nil => rfl
  | cons b breaks ih =>
    rw [List.foldl_cons, newline, ih, List.reverse_cons, List.append_assoc]
    rfl

/-- Of the line breaks between two words the first one stands for a space when it is a line feed
and the only one, and for nothing when it is a line feed that others follow.  All further ones
stand for themselves. -/
theorem fill_newlines (blanks breaks : List Char) (b : Char) :
    ((b :: breaks).foldl newline (.blanks blanks)).fill =
      if b = '\n' then if breaks = [] then [' '] else breaks.reverse
      else breaks.reverse ++ [b] := by
  rw [List.foldl_cons, newline, foldl_newline, List.append_nil]
  split
  · next hb =>
    rw [hb]
    rcases hbreaks : breaks.reverse with _ | ⟨c, cs⟩
    · rw [if_pos (List.reverse_eq_nil_iff.mp hbreaks)]
      rfl
    · have hne : breaks ≠ [] := fun h => List.cons_ne_nil c cs (by rw [← hbreaks, h]; rfl)
      rw [if_neg hne]
      rfl
  · next hb =>
    unfold fill
    split
    · next heq => cases heq
    · next heq => exact absurd (Option.some.inj (Gap.breaks.inj heq).1) hb
    · next heq => exact absurd (Option.some.inj (Gap.breaks.inj heq).1) hb
    · next heq =>
      obtain ⟨hfirst, hrest⟩ := Gap.breaks.inj heq
      rw [← hfirst, ← hrest]
      rfl

end Gap

/-- No gap. -/
def noGap : Gap := .blanks []

/-! ### Quoted scalars -/

/-- The character that a one-letter escape stands for. -/
def simpleEscape? : Char → Option Char
  | '0' => some '\x00'
  | 'a' => some '\x07'
  | 'b' => some '\x08'
  | 't' | '\t' => some '\t'
  | 'n' => some '\n'
  | 'v' => some '\x0b'
  | 'f' => some '\x0c'
  | 'r' => some '\r'
  | 'e' => some '\x1b'
  | ' ' => some ' '
  | '"' => some '"'
  | '/' => some '/'
  | '\\' => some '\\'
  | 'N' => some '\u0085'
  | '_' => some '\u00a0'
  | 'L' => some '\u2028'
  | 'P' => some '\u2029'
  | _ => none

/-- The character that an escape behind a backslash stands for, and the number of
characters it is written with. -/
def readEscape (cs : List Char) : Option (Char × Nat) :=
  let numbered (width : Nat) : Option (Char × Nat) := do
    let digits := cs.tail.take width
    if digits.length ≠ width then none
    let n ← ofHex? digits
    if h : n.isValidChar then some (Char.ofNatAux n h, width + 1) else none
  match cs with
  | 'x' :: _ => numbered 2
  | 'u' :: _ => numbered 4
  | 'U' :: _ => numbered 8
  | c :: _ => (simpleEscape? c).map (·, 1)
  | [] => none

/-- Read the rest of a scalar behind its opening quote. -/
def readQuoted (quote : Char) (read : List Char) (gap : Gap) :
    (fuel : Nat) → Cursor → Option (String × Cursor)
  | 0, _ => none
  | fuel + 1, cursor =>
    match cursor.takeBreak? with
    | some (b, next) => readQuoted quote read (gap.newline b) fuel next
    | none =>
      match cursor.rest with
      | [] => none
      | c :: rest =>
        let filled := gap.fill ++ read
        if isBlank c then readQuoted quote read (gap.blank c) fuel (cursor.skip 1)
        else if cursor.isAtMarker then none
        else if c = quote then
          if quote = '\x27' && rest.head? = some quote then
            readQuoted quote (quote :: filled) noGap fuel (cursor.skip 2)
          else some (String.ofList filled.reverse, cursor.skip 1)
        else if quote = '"' && c = '\\' then
          match (cursor.skip 1).takeBreak? with
          | some (_, next) => readQuoted quote filled (.breaks none []) fuel next
          | none =>
            match readEscape rest with
            | some (e, n) => readQuoted quote (e :: filled) noGap fuel (cursor.skip (n + 1))
            | none => none
        else readQuoted quote (c :: filled) noGap fuel (cursor.skip 1)

/-! ### Plain scalars -/

/-- Whether a plain scalar begins here. -/
def startsPlain (inFlow : Bool) : List Char → Bool
  | [] => false
  | c :: cs =>
    if c = '-' then !cs.head?.any isBlank
    else if c = '?' || c = ':' then !inFlow && !isBoundary cs
    else !isBlank c && !isBreak c && !isIndicator c

/-- A plain scalar that has been read. -/
structure PlainText where
  text : String
  /-- Whether it was the end of a line that ended it. -/
  endsLine : Bool
  cursor : Cursor

/-- The scalar that ends at a place. -/
def PlainText.ofReversed (read : List Char) (gap : Gap) (cursor : Cursor) : PlainText :=
  ⟨String.ofList read.reverse, gap.isBroken, cursor⟩

/-- Read a plain scalar.  Its further lines stand at or behind the column `margin`,
unless it is part of a list or record on one line. -/
def readPlain (inFlow : Bool) (margin : Nat) (read : List Char) (gap : Gap) :
    (fuel : Nat) → Cursor → Option PlainText
  | 0, _ => none
  | fuel + 1, cursor =>
    match cursor.takeBreak? with
    | some (b, next) => readPlain inFlow margin read (gap.newline b) fuel next
    | none =>
      match cursor.rest with
      | [] => some (.ofReversed read gap cursor)
      | c :: rest =>
        let outside := gap.isBroken && cursor.column < margin
        if isBlank c then
          if outside && c = '\t' then none
          else readPlain inFlow margin read (gap.blank c) fuel (cursor.skip 1)
        else if (outside && !inFlow) || cursor.isAtMarker || (c = '#' && !gap.isEmpty) then
          some (.ofReversed read gap cursor)
        else if inFlow && c = ':' && rest.head?.any (fun d => isFlowMark d || d == '?') then
          none
        else if (c = ':' && isBoundary rest) || (inFlow && isFlowMark c) then
          some (.ofReversed read gap cursor)
        else readPlain inFlow margin (c :: (gap.fill ++ read)) noGap fuel (cursor.skip 1)

/-! ### Block scalars -/

/-- What happens to the line breaks at the end of a block scalar. -/
inductive Chomping where
  /-- One is kept. -/
  | clip
  | strip
  | keep
  deriving DecidableEq

/-- The header of a block scalar: its chomping and its explicit indentation. -/
structure BlockHeader where
  chomping : Chomping := .clip
  indent : Option Nat := none

/-- Read the indicators in the header of a block scalar. -/
def readIndicators (h : BlockHeader) : List Char → BlockHeader × Nat
  | [] => (h, 0)
  | c :: cs =>
    let also (h : BlockHeader) : BlockHeader × Nat :=
      let (h, n) := readIndicators h cs
      (h, n + 1)
    if c = '-' && h.chomping = .clip then also { h with chomping := .strip }
    else if c = '+' && h.chomping = .clip then also { h with chomping := .keep }
    else if '1' ≤ c && c ≤ '9' && h.indent.isNone then
      also { h with indent := some (c.toNat - '0'.toNat) }
    else (h, 0)

/-- Pass empty lines and the indentation of the next line, which is at most `indent` if
that is known.  The result has the widest indentation and the line breaks, the last one
first.  No tab may stand in the indentation. -/
def passIndentation (indent : Option Nat) (widest : Nat) (breaks : List Char) :
    (fuel : Nat) → Cursor → Option (Nat × List Char × Cursor)
  | 0, _ => none
  | fuel + 1, cursor =>
    let isInside := indent.all (cursor.column < ·)
    let c := cursor.rest.head?
    if isInside && c = some ' ' then passIndentation indent widest breaks fuel (cursor.skip 1)
    else if isInside && c = some '\t' then none
    else
      let widest := max widest cursor.column
      match cursor.takeBreak? with
      | some (b, next) => passIndentation indent widest (b :: breaks) fuel next
      | none => some (widest, breaks, cursor)

/-- The text of a block scalar in the course of being put together. -/
structure BlockText where
  /-- The text so far, the last character first. -/
  text : List Char := []
  /-- The line break behind it. -/
  last : Option Char := none
  /-- Whether the last line began with a blank. -/
  indented : Bool := false
  /-- The breaks of the empty lines since then, the last one first. -/
  breaks : List Char := []

/-- Add the content of a line to a block scalar.  In a folded one the end of the line in
front of it is a space, or nothing if there are empty lines between, when neither of the
two begins with a blank. -/
def BlockText.add (style : Style) (b : BlockText) (line : List Char) : BlockText :=
  let indented := line.head?.any isBlank
  let gap :=
    if style = .folded && b.last = some '\n' && !b.indented && !indented then
      if b.breaks.isEmpty then [' '] else []
    else b.last.toList
  { text := line.reverse ++ b.breaks ++ gap ++ b.text, indented }

/-- The finished text of a block scalar. -/
def BlockText.finish (chomping : Chomping) (b : BlockText) : String :=
  let last := if chomping = .strip then [] else b.last.toList
  let breaks := if chomping = .keep then b.breaks else []
  String.ofList (breaks ++ last ++ b.text).reverse

/-- Read the lines of a block scalar. -/
def readBlockLines (style : Style) (indent : Nat) (b : BlockText) :
    (fuel : Nat) → Cursor → Option (BlockText × Cursor)
  | 0, _ => none
  | fuel + 1, cursor =>
    if cursor.column = indent && !cursor.rest.isEmpty then
      let (line, behind) := cursor.span (!isBreak ·)
      let (last, next) :=
        match behind.takeBreak? with
        | some (b, next) => (some b, next)
        | none => (none, behind)
      match passIndentation (some indent) 0 [] (next.rest.length + 1) next with
      | some (_, breaks, next) =>
        readBlockLines style indent { b.add style line with last, breaks } fuel next
      | none => none
    else some (b, cursor)

/-- Read a block scalar behind its first character.  Its lines are indented by at
least `margin`, and an explicit indentation adds to that of the lines around it. -/
def readBlock (style : Style) (margin : Nat) (cursor : Cursor) :
    Option (String × Cursor) := do
  let (h, n) := readIndicators {} cursor.rest
  let below ← (cursor.skip n).endLine?
  let fuel := below.rest.length + 1
  let explicit := h.indent.map (margin - 1 + ·)
  let (widest, breaks, content) ← passIndentation explicit 0 [] fuel below
  let indent := explicit.getD (max (max widest margin) 1)
  let (b, next) ← readBlockLines style indent { breaks } fuel content
  return (b.finish h.chomping, next)

end Yaml
end StatementForest
