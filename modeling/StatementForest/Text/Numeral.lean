/-!
# Decimal numerals

A numeral is a non-empty run of ASCII digits, with leading zeros allowed.  It
may carry one sign.  A bounded numeral is rejected when its value does not fit,
however many digits it has.

Main results:

- `readDigits_eq_some_iff`: what counts as a run of digits, and its value.
-/

namespace StatementForest
namespace Text

/-- The ten ASCII digits. -/
def isDigit (c : Char) : Bool :=
  '0' ≤ c && c ≤ '9'

/-- The value of an ASCII digit. -/
def digitValue (c : Char) : Nat :=
  c.toNat - '0'.toNat

/-- The value of a digit run, most significant digit first. -/
def digitsValue (cs : List Char) : Nat :=
  cs.foldl (fun n c => 10 * n + digitValue c) 0

/-- A non-empty run of digits and nothing else. -/
def isDigits (cs : List Char) : Bool :=
  !cs.isEmpty && cs.all isDigit

/-- Read a non-empty run of digits. -/
def readDigits (cs : List Char) : Option Nat :=
  if isDigits cs then some (digitsValue cs) else none

theorem readDigits_eq_some_iff {cs : List Char} {n : Nat} :
    readDigits cs = some n ↔ isDigits cs = true ∧ digitsValue cs = n := by
  unfold readDigits
  split <;> simp_all

/-- Read digits after at most one sign of either kind. -/
def readSigned : List Char → Option Int
  | '+' :: cs => (readDigits cs).map Int.ofNat
  | '-' :: cs => (readDigits cs).map fun n => -(n : Int)
  | cs => (readDigits cs).map Int.ofNat

/-- Read digits after at most one plus sign. -/
def readUnsigned : List Char → Option Nat
  | '+' :: cs => readDigits cs
  | cs => readDigits cs

/-- The range of signed 64-bit integers. -/
def inSigned64 (i : Int) : Bool :=
  -Int.pow 2 63 ≤ i && i < Int.pow 2 63

/-- Read a signed 64-bit integer. -/
def readSigned64 (s : String) : Option Int :=
  (readSigned s.toList).filter inSigned64

/-- Read an unsigned 64-bit integer. -/
def readUnsigned64 (s : String) : Option Nat :=
  (readUnsigned s.toList).filter (· < Nat.pow 2 64)

end Text
end StatementForest
