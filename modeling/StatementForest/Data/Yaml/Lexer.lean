import StatementForest.Data.Yaml.Property

/-!
# The tokens of a YAML text

A text is cut into tokens from left to right.  Whether a scalar is a key shows only at
the colon behind it, so the place of the last possible key is remembered, and its token
is put there later.  A key stands in one line and is not too long.

Main results:

- `Yaml.popMargins_spec`: how many blocks are closed, and what margin is left.

Current gaps:

- No grammar of YAML is stated, and the tokens of a text are not compared with one.
-/

namespace StatementForest
namespace Yaml

/-- A place where a key may have begun. -/
structure Candidate where
  /-- Whether nothing but a key may stand there. -/
  isRequired : Bool
  cursor : Cursor
  /-- The number of tokens in front of it. -/
  position : Nat

/-- The number of octets that a key may go over. -/
def keyLimit : Nat := 1024

/-- Whether a key that began at a place ends in front of another one. -/
def Candidate.isExpired (c : Candidate) (cursor : Cursor) : Bool :=
  c.cursor.line < cursor.line || c.cursor.index + keyLimit < cursor.index

/-- A text in the course of being cut into tokens. -/
structure Lexer where
  cursor : Cursor
  /-- The tokens so far, the last one first. -/
  tokens : List Token := []
  /-- The first column inside of the innermost block. -/
  margin : Nat := 0
  /-- The same for the blocks around it, the innermost first. -/
  margins : List Nat := []
  /-- Where a key may have begun. -/
  candidate : Option Candidate := none
  /-- The same for the lists and records on one line that are open, and for the block
  around them, the innermost first. -/
  outer : List (Option Candidate) := []
  /-- Whether a key may begin here. -/
  allowsKey : Bool := true

/-- Close blocks until the margin is at most `limit`: the number of blocks closed, the
margin and the margins around it. -/
def popMargins (limit margin : Nat) : List Nat → Nat × Nat × List Nat
  | [] => (0, margin, [])
  | m :: ms =>
    if margin > limit then
      let (n, margin, ms) := popMargins limit m ms
      (n + 1, margin, ms)
    else (0, margin, m :: ms)

/-- Closing blocks takes as many margins away as it closes blocks, and ends with a margin that is
at most the limit unless no block is left. -/
theorem popMargins_spec (limit margin : Nat) (margins : List Nat) :
    (popMargins limit margin margins).1 + (popMargins limit margin margins).2.2.length =
        margins.length ∧
      ((popMargins limit margin margins).2.1 ≤ limit ∨
        (popMargins limit margin margins).2.2 = []) := by
  induction margins generalizing margin with
  | nil => exact ⟨rfl, .inr rfl⟩
  | cons m margins ih =>
    rw [popMargins]
    split
    · obtain ⟨hlength, hmargin⟩ := ih m
      refine ⟨?_, hmargin⟩
      rw [List.length_cons, ← hlength]
      exact Nat.add_right_comm _ _ _
    · next h =>
      exact ⟨Nat.zero_add _, .inl (Nat.le_of_not_lt h)⟩

namespace Lexer

/-- Whether a list or record on one line is open. -/
def isInFlow (lx : Lexer) : Bool := !lx.outer.isEmpty

/-- Add a token in front of a place. -/
def push (lx : Lexer) (t : Token) (cursor : Cursor) : Lexer :=
  { lx with tokens := t :: lx.tokens, cursor }

/-- Add a token of some characters of the line. -/
def take (lx : Lexer) (t : Token) (n : Nat) : Lexer := lx.push t (lx.cursor.skip n)

/-- Put tokens behind the first `position` ones. -/
def insert (lx : Lexer) (position : Nat) (ts : List Token) : Lexer :=
  let later := lx.tokens.length - position
  { lx with tokens := lx.tokens.take later ++ ts.reverse ++ lx.tokens.drop later }

/-- Close the blocks whose margin is behind a limit. -/
def closeBlocks (lx : Lexer) (limit : Nat) : Lexer :=
  if lx.isInFlow then lx
  else
    let (n, margin, margins) := popMargins limit lx.margin lx.margins
    { lx with tokens := List.replicate n .blockEnd ++ lx.tokens, margin, margins }

/-- Whether a block begins at a column. -/
def opensBlock (lx : Lexer) (column : Nat) : Bool := !lx.isInFlow && lx.margin ≤ column

/-- Open a block at a column behind the first `position` tokens, if one begins there. -/
def openBlock (lx : Lexer) (start : Token) (column position : Nat) : Lexer :=
  if lx.opensBlock column then
    { lx.insert position [start] with
      margin := column + 1
      margins := lx.margin :: lx.margins }
  else lx

/-- Forget where a key may have begun.  A key must not be missing. -/
def dropCandidate (lx : Lexer) : Option Lexer :=
  if lx.candidate.any (·.isRequired) then none else some { lx with candidate := none }

/-- Remember that a key may begin here. -/
def markCandidate (lx : Lexer) : Option Lexer :=
  if !lx.allowsKey then some lx
  else do
    let lx ← lx.dropCandidate
    let isRequired := !lx.isInFlow && lx.margin = lx.cursor.column + 1
    return { lx with candidate := some ⟨isRequired, lx.cursor, lx.tokens.length⟩ }

/-- Forget the place of a key that is over. -/
def expire (cursor : Cursor) (candidate : Option Candidate) : Option (Option Candidate) :=
  match candidate with
  | some c =>
    if c.isExpired cursor then if c.isRequired then none else some none else some (some c)
  | none => some none

/-- Forget the places of all keys that are over. -/
def expireAll (lx : Lexer) : Option Lexer := do
  return { lx with
    candidate := ← expire lx.cursor lx.candidate
    outer := ← lx.outer.mapM (expire lx.cursor) }

/-- Go on to the next token.  Tabs indent nothing, so they are passed only where no key
may begin. -/
def seek (lx : Lexer) : (fuel : Nat) → Lexer
  | 0 => lx
  | fuel + 1 =>
    let c := lx.cursor
    let c := if c.column = 0 && c.rest.head? = some byteOrderMark then c.skip 1 else c
    let passesTabs := lx.isInFlow || !lx.allowsKey
    let c := (c.pass fun d => d == ' ' || (d == '\t' && passesTabs)).passComment
    match c.takeBreak? with
    | some (_, next) =>
      seek { lx with cursor := next, allowsKey := lx.allowsKey || !lx.isInFlow } fuel
    | none => { lx with cursor := c }

/-! ### One token -/

/-- Take the mark that begins or ends a document, or a directive. -/
def takeBoundary (lx : Lexer) (take : Lexer → Option Lexer) : Option Lexer := do
  let lx ← (lx.closeBlocks 0).dropCandidate
  take { lx with allowsKey := false }

/-- Take the bracket that opens a list or record on one line. -/
def takeOpening (lx : Lexer) (t : Token) : Option Lexer := do
  let lx ← lx.markCandidate
  return { lx.take t 1 with
    candidate := none, outer := lx.candidate :: lx.outer, allowsKey := true }

/-- Take the bracket that closes a list or record on one line. -/
def takeClosing (lx : Lexer) (t : Token) : Option Lexer := do
  let lx ← lx.dropCandidate
  let lx :=
    match lx.outer with
    | candidate :: outer => { lx with candidate, outer }
    | [] => lx
  return { lx.take t 1 with allowsKey := false }

/-- Take the comma between two entries. -/
def takeComma (lx : Lexer) : Option Lexer := do
  let lx ← lx.dropCandidate
  return { lx.take .flowEntry 1 with allowsKey := true }

/-- Open a block of a kind at this column for a mark that may begin one. -/
def openHere (lx : Lexer) (start : Token) : Option Lexer :=
  if lx.isInFlow then some lx
  else if lx.allowsKey then
    some (lx.openBlock start lx.cursor.column lx.tokens.length)
  else none

/-- Take the dash in front of an item. -/
def takeItem (lx : Lexer) : Option Lexer := do
  let lx ← (← lx.openHere .listStart).dropCandidate
  return { lx.take .item 1 with allowsKey := true }

/-- Take the mark in front of a key. -/
def takeKey (lx : Lexer) : Option Lexer := do
  let lx ← (← lx.openHere .recordStart).dropCandidate
  return { lx.take .key 1 with allowsKey := !lx.isInFlow }

/-- Take the colon in front of a value.  Where a key may have begun, it has. -/
def takeValue (lx : Lexer) : Option Lexer :=
  match lx.candidate with
  | some c =>
    let lx := (lx.insert c.position [.key]).openBlock .recordStart c.cursor.column c.position
    some { lx.take .value 1 with candidate := none, allowsKey := false }
  | none => do
    let lx ← lx.openHere .recordStart
    return { lx.take .value 1 with allowsKey := !lx.isInFlow }

/-- Take a token that a key may begin with. -/
def takeWord (lx : Lexer) (read : Cursor → Option (Token × Cursor)) : Option Lexer := do
  let lx ← lx.markCandidate
  let (t, next) ← read lx.cursor
  return { lx.push t next with allowsKey := false }

/-- Take a scalar in quotes. -/
def takeQuoted (lx : Lexer) (quote : Char) : Option Lexer :=
  lx.takeWord fun cursor =>
    (readQuoted quote [] noGap (cursor.rest.length + 1) (cursor.skip 1)).map
      fun (s, next) => (.scalar .quoted s, next)

/-- Take a plain scalar.  A key may begin behind the end of its line. -/
def takePlain (lx : Lexer) : Option Lexer := do
  let lx ← lx.markCandidate
  let p ← readPlain lx.isInFlow lx.margin [] noGap (lx.cursor.rest.length + 1) lx.cursor
  return { lx.push (.scalar .plain p.text) p.cursor with allowsKey := p.endsLine }

/-- Take a block scalar. -/
def takeBlock (lx : Lexer) (style : Style) : Option Lexer := do
  let lx ← lx.dropCandidate
  let (s, next) ← readBlock style lx.margin (lx.cursor.skip 1)
  return { lx.push (.scalar style s) next with allowsKey := true }

/-- Take the token that begins with the given characters. -/
def takeToken (lx : Lexer) (c : Char) (rest : List Char) : Option Lexer :=
  let stands := lx.isInFlow || isBoundary rest
  if lx.cursor.column = 0 && c = '%' then
    lx.takeBoundary fun lx =>
      (readDirective (lx.cursor.skip 1)).map fun (t, next) => lx.push t next
  else if lx.cursor.isAtMarker then
    lx.takeBoundary fun lx => some (lx.take (if c = '-' then .documentStart else .documentEnd) 3)
  else if c = '[' then lx.takeOpening .flowListStart
  else if c = '\x7b' then lx.takeOpening .flowRecordStart
  else if c = ']' then lx.takeClosing .flowListEnd
  else if c = '\x7d' then lx.takeClosing .flowRecordEnd
  else if c = ',' then lx.takeComma
  else if c = '-' && isBoundary rest then lx.takeItem
  else if c = '?' && stands then lx.takeKey
  else if c = ':' && stands then lx.takeValue
  else if c = '*' then
    lx.takeWord fun cursor => (readAnchor (cursor.skip 1)).map fun (s, next) => (.reference s, next)
  else if c = '&' then
    lx.takeWord fun cursor => (readAnchor (cursor.skip 1)).map fun (s, next) => (.anchor s, next)
  else if c = '!' then lx.takeWord (readTag lx.isInFlow)
  else if c = '|' && !lx.isInFlow then lx.takeBlock .literal
  else if c = '>' && !lx.isInFlow then lx.takeBlock .folded
  else if c = '\x27' || c = '"' then lx.takeQuoted c
  else if startsPlain lx.isInFlow (c :: rest) then lx.takePlain
  else none

/-- Take all tokens up to the end of the text. -/
def takeAll (lx : Lexer) : (fuel : Nat) → Option (List Token)
  | 0 => none
  | fuel + 1 =>
    match (lx.seek (lx.cursor.rest.length + 1)).expireAll with
    | none => none
    | some lx =>
      let lx := lx.closeBlocks (lx.cursor.column + 1)
      match lx.cursor.rest with
      | [] => (lx.closeBlocks 0).dropCandidate.map (·.tokens.reverse)
      | c :: rest =>
        match lx.takeToken c rest with
        | some lx => takeAll lx fuel
        | none => none

end Lexer

/-- The tokens of a text, if it can be cut into tokens. -/
def tokens? (s : String) : Option (List Token) :=
  let cs := s.toList
  if cs.all isAllowed then Lexer.takeAll { cursor := { rest := cs } } (cs.length + 1) else none

end Yaml
end StatementForest
