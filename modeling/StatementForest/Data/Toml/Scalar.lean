import StatementForest.Data.Basic
import StatementForest.Data.Toml.Quoted
import StatementForest.Text.Numeral

/-!
# TOML scalars

Truth values, numbers, dates and times.  Integers have at most 128 bits, and the other
numbers have to be finite in double precision unless they say that they are not.

Main results:

- `Toml.mem_of_isDigitRun`: the characters of a run of digits.
-/

namespace StatementForest
namespace Toml

/-! ### Numbers -/

/-- Whether digits of a class stand between and beside single underscores. -/
def isDigitRun (isDigit : Char → Bool) : List Char → Bool
  | [] => false
  | [c] => isDigit c
  | c :: '_' :: cs => isDigit c && isDigitRun isDigit cs
  | c :: cs => isDigit c && isDigitRun isDigit cs

/-- A run of digits is not empty and has nothing but digits and underscores. -/
theorem mem_of_isDigitRun {isDigit : Char → Bool} {cs : List Char}
    (h : isDigitRun isDigit cs = true) :
    cs ≠ [] ∧ ∀ c ∈ cs, isDigit c = true ∨ c = '_' := by
  fun_induction isDigitRun isDigit cs with
  | case1 => cases h
  | case2 c => exact ⟨List.cons_ne_nil _ _, fun d hd => .inl (List.mem_singleton.mp hd ▸ h)⟩
  | case3 c cs ih =>
    obtain ⟨hc, hcs⟩ := Bool.and_eq_true_iff.mp h
    refine ⟨List.cons_ne_nil _ _, fun d hd => ?_⟩
    obtain rfl | rfl | hd := by simpa only [List.mem_cons] using hd
    · exact .inl hc
    · exact .inr rfl
    · exact (ih hcs).2 d hd
  | case4 c cs _ _ ih =>
    obtain ⟨hc, hcs⟩ := Bool.and_eq_true_iff.mp h
    refine ⟨List.cons_ne_nil _ _, fun d hd => ?_⟩
    obtain rfl | hd := List.mem_cons.mp hd
    · exact .inl hc
    · exact (ih hcs).2 d hd

/-- The number of a run of digits of a base. -/
def digitsValue (base : Nat) (cs : List Char) : Nat :=
  (cs.filterMap hexDigit?).foldl (fun n d => n * base + d) 0

/-- A text without one sign at the front. -/
def dropSign : List Char → List Char
  | '+' :: cs | '-' :: cs => cs
  | cs => cs

/-- A number with the sign at the front of its text. -/
def signed (cs : List Char) (magnitude : Int) : Int :=
  if cs.head? = some '-' then -magnitude else magnitude

/-- Whether digits are the whole part of a number: there is no zero in front of others. -/
def isWhole (digits : List Char) : Bool :=
  match digits with
  | ['0'] => true
  | '0' :: _ => false
  | digits => isDigitRun Text.isDigit digits

/-- The digits of a base, read as a number. -/
def readBased (base : Nat) (digits : List Char) : Option Int :=
  let isDigit (c : Char) : Bool := (hexDigit? c).any (· < base)
  if isDigitRun isDigit digits then some (digitsValue base digits) else none

/-- The integer with a given spelling. -/
def integer? (cs : List Char) : Option Int :=
  match cs with
  | '0' :: 'x' :: digits => readBased 16 digits
  | '0' :: 'o' :: digits => readBased 8 digits
  | '0' :: 'b' :: digits => readBased 2 digits
  | cs =>
    let digits := dropSign cs
    if isWhole digits then some (signed cs (digitsValue 10 digits)) else none

/-- The integers that may be written. -/
def isInRange (n : Int) : Bool := -Int.pow 2 127 ≤ n && n < Int.pow 2 128

/-- The exponent with a given spelling; none is zero. -/
def exponent? : List Char → Option Int
  | [] => some 0
  | 'e' :: cs | 'E' :: cs =>
    let digits := dropSign cs
    if isDigitRun Text.isDigit digits then some (signed cs (digitsValue 10 digits)) else none
  | _ => none

/-- The least number that is rounded to infinity. -/
def infinite : Nat := Nat.pow 2 1024 - Nat.pow 2 970

/-- Whether `n` times a power of ten is rounded to a finite number. -/
def isFinite (n : Nat) (exponent : Int) : Bool :=
  let places := (Nat.toDigits 10 n).length + exponent
  if n = 0 || places < 309 then true
  else if places > 309 then false
  else if exponent < 0 then n < infinite * Nat.pow 10 exponent.natAbs
  else n * Nat.pow 10 exponent.natAbs < infinite

/-- Whether a text is a number with a fraction or an exponent, or no finite number. -/
def isFloat (cs : List Char) : Bool :=
  let (whole, rest) := (dropSign cs).span fun c => c != '.' && c != 'e' && c != 'E'
  let word := String.ofList (dropSign cs)
  let finite (fraction rest : List Char) : Bool :=
    match exponent? rest with
    | some e =>
      isFinite (digitsValue 10 (whole ++ fraction)) (e - (fraction.filter (· ≠ '_')).length)
    | none => false
  word == "inf" || word == "nan" ||
    (isWhole whole &&
      match rest with
      | '.' :: rest =>
        let (fraction, rest) := rest.span fun c => c != 'e' && c != 'E'
        isDigitRun Text.isDigit fraction && finite fraction rest
      | rest => !rest.isEmpty && finite [] rest)

/-! ### Dates and times -/

/-- Read a run of exactly so many digits. -/
def readField (width : Nat) (cs : List Char) : Option (Nat × List Char) :=
  let (digits, rest) := cs.span Text.isDigit
  if digits.length = width then some (Text.digitsValue digits, rest) else none

/-- The number of days of a month. -/
def daysIn (year month : Nat) : Nat :=
  let isLeap := year % 4 = 0 && (year % 100 ≠ 0 || year % 400 = 0)
  if month = 2 then if isLeap then 29 else 28
  else if [4, 6, 9, 11].contains month then 30
  else 31

/-- What follows the date at the front. -/
def afterDate? (cs : List Char) : Option (List Char) :=
  match readField 4 cs with
  | some (year, '-' :: rest) =>
    match readField 2 rest with
    | some (month, '-' :: rest) =>
      match readField 2 rest with
      | some (day, rest) =>
        if 1 ≤ month && month ≤ 12 && 1 ≤ day && day ≤ daysIn year month then some rest
        else none
      | none => none
    | _ => none
  | _ => none

/-- What follows the hour and the minute at the front. -/
def afterMinute? (cs : List Char) : Option (List Char) :=
  match readField 2 cs with
  | some (hour, ':' :: rest) =>
    match readField 2 rest with
    | some (minute, rest) => if hour < 24 && minute < 60 then some rest else none
    | none => none
  | _ => none

/-- What follows the time of day at the front.  The second may be left out, and may be
a leap second. -/
def afterTime? (cs : List Char) : Option (List Char) :=
  match afterMinute? cs with
  | some (':' :: rest) =>
    match readField 2 rest with
    | some (second, rest) =>
      if second > 60 then none
      else
        match rest with
        | '.' :: rest =>
          let (digits, rest) := rest.span Text.isDigit
          if digits.isEmpty then none else some rest
        | rest => some rest
    | none => none
  | rest => rest

/-- Whether a text is a distance from universal time, or nothing. -/
def isOffset : List Char → Bool
  | [] | ['Z'] | ['z'] => true
  | '+' :: cs | '-' :: cs => afterMinute? cs = some []
  | _ => false

/-- Whether a text is a date, a time or both. -/
def isMoment (cs : List Char) : Bool :=
  match afterDate? cs with
  | some [] => true
  | some (c :: rest) =>
    (c == 'T' || c == 't' || c == ' ') && (afterTime? rest).any isOffset
  | none => afterTime? cs = some []

/-! ### Any scalar -/

/-- The scalar with a given spelling. -/
def scalar? (cs : List Char) : Option Data :=
  let literal := String.ofList cs
  if literal = "true" then some (.bool true)
  else if literal = "false" then some (.bool false)
  else
    match integer? cs with
    | some n => if isInRange n then some (.integer n) else none
    | none => if isFloat cs || isMoment cs then some (.decimal literal) else none

/-- The characters that end a scalar. -/
def endsScalar (c : Char) : Bool :=
  isBlank c || c == '\n' || c == '\r' || c == ',' || c == ']' || c == '\x7d' || c == '#'

/-- Read a scalar.  A blank may stand between a date and a time. -/
def readScalar (cs : List Char) : Option (Data × List Char) :=
  let (literal, rest) := cs.span fun c => !endsScalar c
  match rest with
  | ' ' :: c :: more =>
    if afterDate? literal = some [] && Text.isDigit c then
      let (time, rest) := (c :: more).span fun c => !endsScalar c
      (scalar? (literal ++ ' ' :: time)).map (·, rest)
    else (scalar? literal).map (·, rest)
  | rest => (scalar? literal).map (·, rest)

end Toml
end StatementForest
