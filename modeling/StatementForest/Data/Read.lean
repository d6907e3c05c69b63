import StatementForest.Collection.Dictionary
import StatementForest.Data.Format
import StatementForest.Text.Numeral

/-!
# Reading typed values from data

A reader says what type it wants and fails on data of another type.  A plain
scalar gives way to the wish of the reader: it is a text for one that wants a
text, and a number for one that wants a number.

A record is read member by member.  Members with unknown names are passed over,
and a known name must not occur twice.  Where the format has it so, a list may
stand for a record: its items are the values of the first fields.

Main results:

- `Data.asText?_text`, `Data.asOptionalText?_ofOption?`, `Data.asCount?_ofNat`: a value that was
  written is read back.
-/

namespace StatementForest
namespace Data

/-- The words for nothing. -/
def isNullWord (s : String) : Bool :=
  s == "~" || s == "null" || s == "Null" || s == "NULL"

/-- The spellings of nothing. -/
def isNullLiteral (s : String) : Bool := s.isEmpty || isNullWord s

/-- The truth value of a spelling. -/
def boolLiteral? : String → Option Bool
  | "true" | "True" | "TRUE" => some true
  | "false" | "False" | "FALSE" => some false
  | _ => none

/-- Whether nothing stands in a place where a value may be left out. -/
def isNull : Data → Bool
  | .null => true
  | .plain s => isNullLiteral s
  | _ => false

/-- Read a text. -/
def asText? (d : Data) : Option String :=
  match d.untagged with
  | .text s | .plain s => some s
  | _ => none

/-- Read a truth value. -/
def asBool? (d : Data) : Option Bool :=
  match d.untagged with
  | .bool b => some b
  | .plain s => boolLiteral? s
  | _ => none

/-- Read a value that may be left out.  A plain scalar with a tag is something, unless
the tag says that it is nothing. -/
def asOptional? {α : Type} (read : Data → Option α) (d : Data) : Option (Option α) :=
  match d with
  | .tagged (.standard "null") (.plain s) => if isNullWord s then some none else none
  | d => if d.isNull then some none else (read d).map some

/-- Read a text that may be left out. -/
def asOptionalText? (d : Data) : Option (Option String) := d.asOptional? asText?

/-- Read a list of data. -/
def asList? (d : Data) : Option (List Data) :=
  match d.untagged with
  | .list items => some items
  | .plain "" => some []
  | _ => none

/-- Read the members of a record. -/
def asMembers? (d : Data) : Option (List (String × Data)) :=
  match d.untagged with
  | .record members => some members
  | .plain "" => some []
  | _ => none

/-- Read the members of a record with some fields.  A list that stands for a record has
the values of at least so many fields. -/
def asRecord? (format : Format) (fields : List String) (least : Nat) (d : Data) :
    Option (List (String × Data)) :=
  match d with
  | .list items =>
    if format.hasPositionalRecords && least ≤ items.length && items.length ≤ fields.length then
      some (fields.zip items)
    else none
  | d => d.asMembers?

/-- Read one of several words.  The word may also be a tag in front of nothing, or the
name of the only member of a record. -/
def asWord? {α : Type} (format : Format) (ofText? : String → Option α) (d : Data) : Option α :=
  match d with
  | .tagged (.own word) value => if value.isNull then ofText? word else none
  | .record [(word, value)] => if format.standsForWord value then ofText? word else none
  | d => d.asText?.bind ofText?

/-- Read a list of texts. -/
def asTexts? (d : Data) : Option (List String) := do
  (← d.asList?).mapM asText?

/-- Read a record with any member names; the last member of a name stays. -/
def asDictionary? {α : Type} (read : Data → Option α) (d : Data) : Option (Dictionary α) := do
  let entries ← (← d.asMembers?).mapM fun (name, value) => (read value).map (name, ·)
  return Dictionary.ofList entries

/-! ### Counts -/

/-- The digits of a base other than ten. -/
def baseDigit? (base : Nat) (c : Char) : Option Nat :=
  let n :=
    if '0' ≤ c && c ≤ '9' then c.toNat - '0'.toNat
    else if 'a' ≤ c && c ≤ 'f' then c.toNat - 'a'.toNat + 10
    else if 'A' ≤ c && c ≤ 'F' then c.toNat - 'A'.toNat + 10
    else base
  if n < base then some n else none

/-- Read a non-empty run of digits of a base. -/
def readBase (base : Nat) : List Char → Option Nat
  | [] => none
  | cs => do return (← cs.mapM (baseDigit? base)).foldl (fun n d => n * base + d) 0

/-- Read a plain scalar as a count: at most one plus sign and then decimal digits
without a leading zero, or digits behind `0x`, `0o` or `0b`. -/
def readPlainCount (s : String) : Option Nat :=
  let cs := s.toList
  let unsigned := if cs.head? = some '+' then cs.tail else cs
  match unsigned with
  | '0' :: 'x' :: digits => readBase 16 digits
  | '0' :: 'o' :: digits => readBase 8 digits
  | '0' :: 'b' :: digits => readBase 2 digits
  | '0' :: _ :: _ => none
  | digits => Text.readDigits digits

/-- The counts of lines and statements are below `2 ^ 32`. -/
def isCount (n : Nat) : Bool := n < Nat.pow 2 32

/-- Read a count. -/
def asCount? (d : Data) : Option Nat :=
  match d.untagged with
  | .integer (.ofNat n) => if isCount n then some n else none
  | .plain s => (readPlainCount s).filter isCount
  | _ => none

/-! ### Members -/

/-- The value of the one member with a given name: `none` when the name repeats,
and `some none` when it is missing. -/
def member? (members : List (String × Data)) (name : String) : Option (Option Data) :=
  match members.filter (·.1 = name) with
  | [] => some none
  | [(_, value)] => some (some value)
  | _ => none

/-- Read a member that must be there. -/
def required? {α : Type} (read : Data → Option α) (members : List (String × Data))
    (name : String) : Option α := do
  read (← (← member? members name))

/-- Read a member with a value for when it is missing. -/
def defaulted? {α : Type} (read : Data → Option α) (fallback : α)
    (members : List (String × Data)) (name : String) : Option α := do
  match ← member? members name with
  | some value => read value
  | none => return fallback

/-- Read a member that may be missing or null. -/
def optional? {α : Type} (read : Data → Option α) (members : List (String × Data))
    (name : String) : Option (Option α) :=
  defaulted? (asOptional? read) none members name

/-! ### Reading back -/

/-- A text is read as itself. -/
@[simp]
theorem asText?_text (s : String) : (Data.text s).asText? = some s := by
  simp [asText?, untagged]

/-- An optional text is read back. -/
@[simp]
theorem asOptionalText?_ofOption? (value : Option String) :
    (ofOption? value).asOptionalText? = some value := by
  cases value <;> rfl

/-- A count is read back. -/
theorem asCount?_ofNat {n : Nat} (h : isCount n = true) : (ofNat n).asCount? = some n := by
  simp [ofNat, asCount?, untagged, h]

end Data
end StatementForest
