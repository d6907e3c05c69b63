import StatementForest.Data.Yaml.Token

/-!
# Anchors, tags and directives of YAML

Anchors and tags stand in front of a value, directives in front of a document.

Main results:

- `Yaml.width_of_readEscaped`: an escaped character takes between one and four octets.
-/

namespace StatementForest
namespace Yaml

/-- Read the name of an anchor behind its mark. -/
def readAnchor (cursor : Cursor) : Option (String × Cursor) :=
  let (name, next) := cursor.span isNameCharacter
  let ends := isBoundary next.rest ||
    next.rest.head?.any ['?', ':', ',', ']', '\x7d', '%', '@', '\x60'].contains
  if name.isEmpty || !ends then none else some (String.ofList name, next)

/-! ### Addresses -/

/-- The octet that an escape at the front stands for. -/
def escapedOctet? : List Char → Option Nat
  | '%' :: a :: b :: _ => ofHex? [a, b]
  | _ => none

/-- The number of octets of a character with the given first one. -/
def octetWidth (octet : Nat) : Nat :=
  if octet < 0x80 then 1
  else if octet / 0x20 = 6 then 2
  else if octet / 0x10 = 14 then 3
  else if octet / 0x08 = 30 then 4
  else 0

theorem octetWidth_le (octet : Nat) : octetWidth octet ≤ 4 := by
  unfold octetWidth
  split
  · omega
  · split
    · omega
    · split
      · omega
      · split <;> omega

/-- Read further octets of a character. -/
def readOctets (value : Nat) : (count : Nat) → List Char → Option Nat
  | 0, _ => some value
  | count + 1, cs =>
    match escapedOctet? cs with
    | some octet =>
      if octet / 0x40 = 2 then readOctets (value * 0x40 + octet % 0x40) count (cs.drop 3)
      else none
    | none => none

/-- The character that the escapes at the front stand for, and their number. -/
def readEscaped (cs : List Char) : Option (Char × Nat) := do
  let first ← escapedOctet? cs
  let width := octetWidth first
  if width = 0 then none
  let bits := if width = 1 then first else first % Nat.pow 2 (7 - width)
  let n ← readOctets bits (width - 1) (cs.drop 3)
  return (Char.ofNat n, width)

/-- An escaped character takes between one and four octets. -/
theorem width_of_readEscaped {cs : List Char} {c : Char} {width : Nat}
    (h : readEscaped cs = some (c, width)) : 1 ≤ width ∧ width ≤ 4 := by
  obtain ⟨first, -, h⟩ := Option.bind_eq_some_iff.mp h
  dsimp only at h
  split at h
  · cases h
  · next hwidth =>
    obtain ⟨n, -, h⟩ := Option.bind_eq_some_iff.mp h
    cases h
    exact ⟨Nat.one_le_iff_ne_zero.mpr hwidth, octetWidth_le first⟩

/-- Read an address behind what was read. -/
def readAddress (bracketed : Bool) (read : List Char) :
    (fuel : Nat) → Cursor → Option (String × Cursor)
  | 0, _ => none
  | fuel + 1, cursor =>
    match cursor.rest with
    | c :: _ =>
      if c = '%' then
        match readEscaped cursor.rest with
        | some (c, n) => readAddress bracketed (c :: read) fuel (cursor.skip (3 * n))
        | none => none
      else if isAddressCharacter bracketed c then
        readAddress bracketed (c :: read) fuel (cursor.skip 1)
      else some (String.ofList read.reverse, cursor)
    | [] => some (String.ofList read.reverse, cursor)

/-- Read an address that is not empty. -/
def readAddress? (bracketed : Bool) (cursor : Cursor) : Option (String × Cursor) :=
  (readAddress bracketed [] (cursor.rest.length + 1) cursor).filter (!·.1.isEmpty)

/-! ### Tags -/

/-- Read the exclamation mark at the front, a name, and another mark if there is one. -/
def readHandle (cursor : Cursor) : Option (String × Cursor) :=
  match cursor.rest with
  | '!' :: _ =>
    let (name, next) := (cursor.skip 1).span isNameCharacter
    if next.rest.head? = some '!' then
      some (String.ofList ('!' :: name ++ ['!']), next.skip 1)
    else some (String.ofList ('!' :: name), next)
  | _ => none

/-- Read a tag that begins with an exclamation mark. -/
def readTag (inFlow : Bool) (cursor : Cursor) : Option (Token × Cursor) := do
  let (token, next) ←
    if cursor.rest.tail.head? = some '<' then
      let (address, next) ← readAddress? true (cursor.skip 2)
      if next.rest.head? = some '>' then some (Token.tag "" address, next.skip 1) else none
    else
      let (handle, next) ← readHandle cursor
      if handle.length > 1 && handle.endsWith "!" then
        let (suffix, next) ← readAddress? false next
        some (.tag handle suffix, next)
      else
        let name := handle.toList.tail
        let (suffix, next) ← readAddress false name.reverse (next.rest.length + 1) next
        if suffix.isEmpty then some (.tag "" "!", next) else some (.tag "!" suffix, next)
  if isBoundary next.rest || (inFlow && next.rest.head? = some ',') then some (token, next)
  else none

/-! ### Directives -/

/-- Read a number of at most nine digits. -/
def readNumber (cursor : Cursor) : Option (Nat × Cursor) :=
  let (digits, next) := cursor.span Char.isDigit
  if digits.isEmpty || digits.length > 9 then none
  else some (digits.foldl (fun n d => n * 10 + (d.toNat - '0'.toNat)) 0, next)

/-- Read the directive that names the version of the format, behind its name. -/
def readVersion (cursor : Cursor) : Option (Token × Cursor) := do
  let (major, next) ← readNumber (cursor.pass isBlank)
  if next.rest.head? ≠ some '.' then none
  let (minor, next) ← readNumber (next.skip 1)
  return (.version major minor, next)

/-- Read the directive that gives the meaning of a handle, behind its name. -/
def readHandleMeaning (cursor : Cursor) : Option (Token × Cursor) := do
  let (handle, next) ← readHandle (cursor.pass isBlank)
  if handle ≠ "!" && !handle.endsWith "!" then none
  if !next.rest.head?.any isBlank then none
  let (meaning, next) ← readAddress? true (next.pass isBlank)
  if isBoundary next.rest then some (.handle handle meaning, next) else none

/-- Read a directive behind its mark, up to the beginning of the next line. -/
def readDirective (cursor : Cursor) : Option (Token × Cursor) := do
  let (name, next) := cursor.span isNameCharacter
  if !isBoundary next.rest then none
  let (token, next) ←
    match String.ofList name with
    | "YAML" => readVersion next
    | "TAG" => readHandleMeaning next
    | _ => none
  return (token, ← next.endLine?)

end Yaml
end StatementForest
