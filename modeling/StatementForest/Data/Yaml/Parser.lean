import StatementForest.Data.Yaml.Lexer
import StatementForest.Data.Yaml.Node

/-!
# Reading YAML text

A text holds at most one document, which is a value: a list, a record, a scalar, or a
reference to the value of an anchor.

Current gaps:

- No theorem says which texts are read.  The reader accepts block and flow styles, tags, anchors
  and references as they are found by the scanner.
-/

namespace StatementForest
namespace Yaml

/-! ### Reading tokens -/

/-- A document in the course of being read. -/
structure Reading where
  tokens : List Token
  /-- The meanings of the handles in front of tags. -/
  meanings : List (String × String) := []
  anchors : Array Anchor := #[]
  /-- The number of different names of anchors. -/
  names : Nat := 0
  /-- The number of values and references so far, where lists and records count twice. -/
  size : Nat := 0

/-- A step that reads some tokens. -/
abbrev ReadM := StateT Reading Option

namespace ReadM

/-- The next token. -/
def peek? : ReadM (Option Token) := do return (← get).tokens.head?

/-- Whether the next token is of some kind. -/
def isAt (kind : Token → Bool) : ReadM Bool := do return (← peek?).any kind

/-- Pass the next token. -/
def next : ReadM Unit := modify fun r => { r with tokens := r.tokens.tail }

/-- Pass the next token if it is the given one. -/
def accept (t : Token) : ReadM Bool := do
  if ← isAt (· = t) then
    next
    return true
  else return false

/-- Count a value. -/
def count (n : Nat) : ReadM Unit := modify fun r => { r with size := r.size + n }

/-- Let a name stand for the value that begins here.  The result is the place of the
anchor. -/
def openAnchor (name : Option String) : ReadM (Option Nat) :=
  match name with
  | none => return none
  | some name => modifyGet fun r =>
    let isKnown := r.anchors.any (·.name = name)
    (some r.anchors.size, { r with
      anchors := r.anchors.push ⟨name, r.names, .scalar (.plain "")⟩
      names := if isKnown then r.names else r.names + 1 })

/-- Set the value of the anchor at a place. -/
def closeAnchor (place : Option Nat) (value : Node) : ReadM Unit :=
  match place with
  | none => pure ()
  | some i => modify fun r => { r with anchors := r.anchors.modify i ({ · with value }) }

/-- A reference to the value of the latest anchor with a name. -/
def refer (name : String) : ReadM Node := do
  count 1
  match (← get).anchors.findRev? (·.name = name) with
  | some anchor => return .reference anchor.number
  | none => failure

/-- A value that is left out, with its tag. -/
def absentWith (tag : Option Tag) : ReadM Node := do
  count 1
  return .scalar (scalarData tag .plain "")

/-- A value that is left out. -/
def absent : ReadM Node := absentWith none

/-- Read an anchor, if there is one. -/
def anchor? : ReadM (Option String) := do
  match ← peek? with
  | some (.anchor a) =>
    next
    return some a
  | _ => return none

/-- Read a tag, if there is one. -/
def readTag? : ReadM (Option Tag) := do
  match ← peek? with
  | some (.tag handle suffix) =>
    next
    match tag? (← get).meanings handle suffix with
    | some tag => return some tag
    | none => failure
  | _ => return none

/-- Read the anchor and the tag in front of a value, in any order. -/
def properties : ReadM (Option String × Option Tag) := do
  match ← anchor? with
  | some a => return (some a, ← readTag?)
  | none =>
    match ← readTag? with
    | some tag => return (← anchor?, some tag)
    | none => return (none, none)

end ReadM

open ReadM

/-- The tokens that end a member of a record over several lines. -/
def endsMember : Token → Bool
  | .key | .value | .blockEnd => true
  | _ => false

/-- The tokens that end an item of a list over several lines. -/
def endsItem : Token → Bool
  | .item | .blockEnd => true
  | _ => false

/-- The tokens that end a member of a record on one line. -/
def endsFlowMember : Token → Bool
  | .flowEntry | .flowRecordEnd => true
  | _ => false

mutual

/-- Read a value.  In a block it may be a list or record over several lines, and as the
value of a record member it may be a list that is indented no further than the record. -/
def readNode (fuel : Nat) (inBlock mayBeFlush : Bool) : ReadM Node :=
  match fuel with
  | 0 => failure
  | fuel + 1 => do
    match ← peek? with
    | some (.reference name) =>
      next
      refer name
    | _ =>
      let (name, tag) ← properties
      let place ← openAnchor name
      let value ← readContent fuel inBlock mayBeFlush (name.isSome || tag.isSome) tag
      closeAnchor place value
      return value

/-- Read a value behind its anchor and its tag.  With one of them it may be left out. -/
def readContent (fuel : Nat) (inBlock mayBeFlush mayBeAbsent : Bool) (tag : Option Tag) :
    ReadM Node :=
  match fuel with
  | 0 => failure
  | fuel + 1 => do
    match ← peek? with
    | some (.scalar style s) =>
      next
      count 1
      return .scalar (scalarData tag style s)
    | some .flowListStart =>
      next
      count 2
      return .list (← readFlowItems fuel true)
    | some .flowRecordStart =>
      next
      count 2
      return .record (← readFlowMembers fuel true)
    | t =>
      if t = some .item && mayBeFlush then
        count 2
        return .list (← readFlushItems fuel)
      else if t = some .listStart && inBlock then
        next
        count 2
        return .list (← readItems fuel)
      else if t = some .recordStart && inBlock then
        next
        count 2
        return .record (← readMembers fuel)
      else if mayBeAbsent then absentWith tag
      else failure

/-- Read a value, unless a token follows that ends its place. -/
def readUnless (fuel : Nat) (ends : Token → Bool) (inBlock mayBeFlush : Bool) :
    ReadM Node :=
  match fuel with
  | 0 => failure
  | fuel + 1 => do
    if ← isAt ends then absent else readNode fuel inBlock mayBeFlush

/-- Read the items of a list over several lines. -/
def readItems (fuel : Nat) : ReadM (List Node) :=
  match fuel with
  | 0 => failure
  | fuel + 1 => do
    if ← accept .item then
      let item ← readUnless fuel endsItem true false
      return item :: (← readItems fuel)
    else if ← accept .blockEnd then return []
    else failure

/-- Read the items of a list that is indented no further than the record around it. -/
def readFlushItems (fuel : Nat) : ReadM (List Node) :=
  match fuel with
  | 0 => failure
  | fuel + 1 => do
    if ← accept .item then
      let item ← readUnless fuel (fun t => endsItem t || endsMember t) true false
      return item :: (← readFlushItems fuel)
    else return []

/-- Read the members of a record over several lines. -/
def readMembers (fuel : Nat) : ReadM (List (Node × Node)) :=
  match fuel with
  | 0 => failure
  | fuel + 1 => do
    if ← accept .key then
      let key ← readUnless fuel endsMember true true
      let value ←
        if ← accept .value then readUnless fuel endsMember true true else absent
      return (key, value) :: (← readMembers fuel)
    else if ← accept .blockEnd then return []
    else failure

/-- Read the items of a list on one line.  An item may be the only member of a record
that has no braces. -/
def readFlowItems (fuel : Nat) (isFirst : Bool) : ReadM (List Node) :=
  match fuel with
  | 0 => failure
  | fuel + 1 => do
    if ← accept .flowListEnd then return []
    if !isFirst then
      if !(← accept .flowEntry) then failure
      if ← accept .flowListEnd then return []
    let item ←
      if ← accept .key then readPair fuel else readNode fuel false false
    return item :: (← readFlowItems fuel false)

/-- Read the only member of a record behind the mark of its key.  A key that is left
out takes the token behind it away. -/
def readPair (fuel : Nat) : ReadM Node :=
  match fuel with
  | 0 => failure
  | fuel + 1 => do
    count 2
    let key ←
      if ← isAt fun t => t = .value || t.isFlowEnd then
        next
        absent
      else readNode fuel false false
    let value ←
      if ← accept .value then readUnless fuel Token.isFlowEnd false false
      else absent
    return .record [(key, value)]

/-- Read the members of a record on one line. -/
def readFlowMembers (fuel : Nat) (isFirst : Bool) : ReadM (List (Node × Node)) :=
  match fuel with
  | 0 => failure
  | fuel + 1 => do
    if ← accept .flowRecordEnd then return []
    if !isFirst then
      if !(← accept .flowEntry) then failure
      if ← accept .flowRecordEnd then return []
    let member ←
      if ← accept .key then
        let key ←
          readUnless fuel (fun t => t = .value || endsFlowMember t) false false
        let value ←
          if ← accept .value then readUnless fuel endsFlowMember false false
          else absent
        pure (key, value)
      else pure (← readNode fuel false false, ← absent)
    return member :: (← readFlowMembers fuel false)

end

/-! ### Documents -/

/-- Read the directives in front of a document: at most one version, which has to be
one of the two that are known, and one meaning for a handle. -/
def readDirectives (hasVersion : Bool) : (fuel : Nat) → ReadM Unit
  | 0 => failure
  | fuel + 1 => do
    match ← peek? with
    | some (.version major minor) =>
      if hasVersion || major ≠ 1 || (minor ≠ 1 && minor ≠ 2) then failure
      next
      readDirectives true fuel
    | some (.handle handle meaning) =>
      if ((← get).meanings.lookup handle).isSome then failure
      modify fun r => { r with meanings := (handle, meaning) :: r.meanings }
      next
      readDirectives hasVersion fuel
    | _ => pure ()

/-- Pass the marks that end a document. -/
def passEnds : (fuel : Nat) → ReadM Unit
  | 0 => pure ()
  | fuel + 1 => do if ← accept .documentEnd then passEnds fuel

/-- The tokens that stand only between documents. -/
def isBetween : Token → Bool
  | .version _ _ | .handle _ _ | .documentStart | .documentEnd => true
  | _ => false

/-- Read the value of the only document, if there is one. -/
def readDocument (fuel : Nat) : ReadM Node := do
  if (← peek?).isNone then absent
  else
    let isExplicit ← isAt fun t => isBetween t && t ≠ .documentEnd
    if isExplicit then
      readDirectives false fuel
      if !(← accept .documentStart) then failure
    let value ←
      if isExplicit && (← peek?).all isBetween then absent
      else readNode fuel true false
    passEnds fuel
    return value

/-- Read a text that holds at most one document.  A text without a document holds an
empty plain scalar. -/
def document? (s : String) : Option Document := do
  let tokens ← tokens? s
  let (root, r) ← (readDocument (4 * tokens.length + 4)).run { tokens }
  if r.tokens.isEmpty then some ⟨root, r.anchors, r.size⟩ else none

end Yaml
end StatementForest
