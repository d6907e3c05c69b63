import Mathlib.Data.List.Induction
import Mathlib.Data.List.TakeWhile
import Mathlib.Data.Nat.Digits.Defs
import StatementForest.Condition.Parser
import StatementForest.Text.Date
import StatementForest.Text.Identifier

/-!
# Shapes of texts

What the small readers of texts accept, stated without them: a text without its blank
ends, numerals with and without a sign, dates, versions, identifiers and references.  The
value of a numeral is the number that its digits stand for, however many there are.

Main results:

- Theorem `Text.trims_iff`: trimming takes away the blank ends and nothing else.
- Theorems `Text.numeral_iff`, `Text.signed_iff`: which digit runs are read, and as which
  number.
- Theorems `Text.isDate_iff`, `Text.readVersion_eq_some_iff`: the shapes of dates and of
  versions.
- Theorems `Text.isIdentifier_iff`, `Text.isReference_iff`: the shapes of names.
- Theorem `Condition.parse_trim`: blank ends do not matter to a condition.
-/

namespace StatementForest
namespace Text

/-! ## Blank ends -/

/-- Only blank characters. -/
def Blank (cs : List Char) : Prop := ∀ c ∈ cs, isBlank c = true

/-- The second text is the first one without the blank characters at its ends. -/
structure Trims (s t : String) : Prop where
  unpadded : Unpadded t.toList
  padded : ∃ before after, Blank before ∧ Blank after ∧
    s.toList = before ++ t.toList ++ after

/-- Nothing is left of blank characters. -/
theorem dropWhile_of_blank {cs : List Char} (h : Blank cs) : cs.dropWhile isBlank = [] :=
  List.dropWhile_eq_nil_iff.mpr h

/-- Blank characters at both ends are taken away, and nothing else. -/
theorem trimChars_padded {before cs after : List Char} (hbefore : Blank before)
    (hafter : Blank after) (h : Unpadded cs) : trimChars (before ++ cs ++ after) = cs := by
  rw [trimChars, List.append_assoc, List.dropWhile_append_of_pos hbefore]
  cases cs with
  | nil =>
    rw [List.nil_append, dropWhile_of_blank hafter]
    rfl
  | cons c cs =>
    have hfront : (c :: cs ++ after).dropWhile isBlank = c :: cs ++ after :=
      dropWhile_eq_self fun d hd => h.1 d hd
    have hback : (c :: cs).reverse.dropWhile isBlank = (c :: cs).reverse :=
      dropWhile_eq_self fun d hd => h.2 d (by rwa [List.head?_reverse] at hd)
    have hrev : ∀ d ∈ after.reverse, isBlank d = true := fun d hd =>
      hafter d (List.mem_reverse.mp hd)
    rw [hfront, List.reverse_append, List.dropWhile_append_of_pos hrev, hback,
      List.reverse_reverse]

/-- What is left when blank characters are dropped does not begin with one. -/
theorem isBlank_head?_dropWhile (cs : List Char) {c : Char}
    (h : (cs.dropWhile isBlank).head? = some c) : isBlank c = false := by
  have hnot := List.head?_dropWhile_not isBlank cs
  rwa [h] at hnot

/-- Every text is what is left of it, between blank characters. -/
theorem exists_padding (cs : List Char) :
    ∃ before after, Blank before ∧ Blank after ∧ cs = before ++ trimChars cs ++ after := by
  let rest := cs.dropWhile isBlank
  refine ⟨cs.takeWhile isBlank, (rest.reverse.takeWhile isBlank).reverse,
    fun c hc => List.mem_takeWhile_imp hc,
    fun c hc => List.mem_takeWhile_imp (List.mem_reverse.mp hc), ?_⟩
  have hrest : rest = trimChars cs ++ (rest.reverse.takeWhile isBlank).reverse := by
    rw [trimChars, ← List.reverse_append, List.takeWhile_append_dropWhile, List.reverse_reverse]
  rw [List.append_assoc, ← hrest, List.takeWhile_append_dropWhile]

/-- What is left has no blank ends. -/
theorem unpadded_trimChars (cs : List Char) : Unpadded (trimChars cs) := by
  let rest := cs.dropWhile isBlank
  constructor
  · intro c hc
    -- the trimmed characters are the first ones behind the blank beginning
    have hprefix : trimChars cs <+: rest := by
      rw [trimChars, ← List.reverse_suffix, List.reverse_reverse]
      exact List.dropWhile_suffix isBlank
    obtain ⟨after, hafter⟩ := hprefix
    refine isBlank_head?_dropWhile cs ?_
    show rest.head? = some c
    rw [← hafter, List.head?_append, hc, Option.some_or]
  · intro c hc
    rw [trimChars, List.getLast?_reverse] at hc
    exact isBlank_head?_dropWhile _ hc

/-- Trimming takes away the blank ends and nothing else. -/
theorem trims_iff {s t : String} : Trims s t ↔ trim s = t := by
  constructor
  · rintro ⟨hunpadded, before, after, hbefore, hafter, hs⟩
    rw [trim, hs, trimChars_padded hbefore hafter hunpadded, String.ofList_toList]
  · rintro rfl
    have hlist : (trim s).toList = trimChars s.toList := String.toList_ofList
    constructor
    · rw [hlist]
      exact unpadded_trimChars s.toList
    · rw [hlist]
      exact exists_padding s.toList

/-- A text is blank if nothing is left of it. -/
theorem trim_eq_empty_iff {s : String} : trim s = "" ↔ Blank s.toList := by
  rw [← trims_iff]
  constructor
  · rintro ⟨-, before, after, hbefore, hafter, hs⟩ c hc
    rw [hs, String.toList_empty, List.append_nil] at hc
    exact (List.mem_append.mp hc).elim (hbefore c) (hafter c)
  · intro h
    refine ⟨⟨nofun, nofun⟩, s.toList, [], h, nofun, ?_⟩
    simp

/-! ## Numerals -/

/-- A non-empty run of ASCII digits and the number it stands for. -/
structure Numeral (cs : List Char) (n : Nat) : Prop where
  nonempty : cs ≠ []
  digits : ∀ c ∈ cs, '0' ≤ c ∧ c ≤ '9'
  value : Nat.ofDigits 10 (cs.reverse.map digitValue) = n

/-- Reading digits from the left gives the number that they stand for from the right. -/
theorem digitsValue_eq_ofDigits (cs : List Char) :
    digitsValue cs = Nat.ofDigits 10 (cs.reverse.map digitValue) := by
  induction cs using List.reverseRecOn with
  | nil => rfl
  | append_singleton cs c ih =>
    rw [List.reverse_append, List.reverse_singleton, List.singleton_append, List.map_cons,
      Nat.ofDigits_cons, ← ih, digitsValue, List.foldl_append, List.foldl_cons, List.foldl_nil,
      ← digitsValue, Nat.add_comm]

/-- A run of digits is not empty and has only digits. -/
theorem isDigits_iff {cs : List Char} :
    isDigits cs = true ↔ cs ≠ [] ∧ ∀ c ∈ cs, '0' ≤ c ∧ c ≤ '9' := by
  simp [isDigits, isDigit]

/-- Which digit runs are read, and as which number. -/
theorem numeral_iff {cs : List Char} {n : Nat} : Numeral cs n ↔ readDigits cs = some n := by
  rw [readDigits_eq_some_iff, isDigits_iff, digitsValue_eq_ofDigits]
  exact ⟨fun h => ⟨⟨h.nonempty, h.digits⟩, h.value⟩, fun h => ⟨h.1.1, h.1.2, h.2⟩⟩

/-- A run of digits stands for a number. -/
theorem isDigits_iff_exists_numeral {cs : List Char} :
    isDigits cs = true ↔ ∃ n, Numeral cs n := by
  simp only [numeral_iff, readDigits_eq_some_iff, exists_and_left, exists_eq', and_true]

/-- No digit run begins with a sign. -/
theorem Numeral.head_ne {cs : List Char} {n : Nat} (h : Numeral cs n) {c : Char}
    (hc : ¬ '0' ≤ c) (rest : List Char) : cs ≠ c :: rest := by
  rintro rfl
  exact hc (h.digits c List.mem_cons_self).1

/-- A digit run with at most one sign before it, and the number it stands for. -/
inductive Signed : List Char → Int → Prop where
  | bare {cs : List Char} {n : Nat} (h : Numeral cs n) : Signed cs n
  | plus {cs : List Char} {n : Nat} (h : Numeral cs n) : Signed ('+' :: cs) n
  | minus {cs : List Char} {n : Nat} (h : Numeral cs n) : Signed ('-' :: cs) (-n)

/-- A run of digits without a sign is read as its number. -/
theorem readSigned_of_numeral {cs : List Char} {n : Nat} (h : Numeral cs n) :
    readSigned cs = some (n : Int) := by
  unfold readSigned
  split
  · exact absurd rfl (h.head_ne (by decide) _)
  · exact absurd rfl (h.head_ne (by decide) _)
  · rw [numeral_iff.mp h]
    rfl

/-- Which signed digit runs are read, and as which number. -/
theorem signed_iff {cs : List Char} {i : Int} : Signed cs i ↔ readSigned cs = some i := by
  constructor
  · rintro (h | h | h)
    · exact readSigned_of_numeral h
    · rw [readSigned, numeral_iff.mp h]
      rfl
    · rw [readSigned, numeral_iff.mp h]
      rfl
  · intro h
    unfold readSigned at h
    split at h <;> obtain ⟨n, hn, rfl⟩ := Option.map_eq_some_iff.mp h
    · exact .plus (numeral_iff.mpr hn)
    · obtain ⟨m, hm, hmn⟩ := Option.bind_eq_some_iff.mp hn
      cases hmn
      exact .minus (numeral_iff.mpr hm)
    · exact .bare (numeral_iff.mpr hn)

/-- A digit run with at most one plus sign before it, and the number it stands for. -/
inductive Unsigned : List Char → Nat → Prop where
  | bare {cs : List Char} {n : Nat} (h : Numeral cs n) : Unsigned cs n
  | plus {cs : List Char} {n : Nat} (h : Numeral cs n) : Unsigned ('+' :: cs) n

/-- Which unsigned digit runs are read, and as which number. -/
theorem unsigned_iff {cs : List Char} {n : Nat} :
    Unsigned cs n ↔ readUnsigned cs = some n := by
  constructor
  · rintro (h | h)
    · unfold readUnsigned
      split
      · exact absurd rfl (h.head_ne (by decide) _)
      · exact numeral_iff.mp h
    · exact numeral_iff.mp h
  · intro h
    unfold readUnsigned at h
    split at h
    · exact .plus (numeral_iff.mpr h)
    · exact .bare (numeral_iff.mpr h)

/-! ## Dates -/

/-- Four digits, a month from 01 to 12 and a day from 01 to 31, with hyphens between. -/
def Date (cs : List Char) : Prop :=
  ∃ (year month day : List Char) (y m d : Nat),
    cs = year ++ '-' :: month ++ '-' :: day ∧
    year.length = 4 ∧ month.length = 2 ∧ day.length = 2 ∧
    Numeral year y ∧ Numeral month m ∧ Numeral day d ∧
    (1 ≤ m ∧ m ≤ 12) ∧ 1 ≤ d ∧ d ≤ 31

/-- A run of digits stands for the number that is read. -/
theorem numeral_digitsValue {c : Char} {cs : List Char} (h : (c :: cs).all isDigit = true) :
    Numeral (c :: cs) (digitsValue (c :: cs)) :=
  numeral_iff.mpr (readDigits_eq_some_iff.mpr ⟨h, rfl⟩)

namespace Numeral

variable {cs : List Char} {n : Nat}

/-- The number of a run of digits is the one that is read. -/
theorem eq_digitsValue (h : Numeral cs n) : digitsValue cs = n :=
  (readDigits_eq_some_iff.mp (numeral_iff.mp h)).2

/-- A numeral has only digits. -/
theorem all_isDigit (h : Numeral cs n) : cs.all isDigit = true :=
  (Bool.and_eq_true_iff.mp (readDigits_eq_some_iff.mp (numeral_iff.mp h)).1).2

end Numeral

/-- The test for dates accepts the texts of that form. -/
theorem isDate_iff {s : String} : isDate s = true ↔ Date s.toList := by
  unfold isDate
  constructor
  · intro h
    unfold isDateChars at h
    split at h
    · next y1 y2 y3 y4 m1 m2 d1 d2 hs =>
      simp only [Bool.and_eq_true, decide_eq_true_eq, List.all_cons, List.all_nil] at h
      obtain ⟨⟨⟨hy1, hy2, hy3, hy4, hm1, hm2, hd1, hd2, -⟩, hmonth⟩, hday⟩ := h
      refine ⟨[y1, y2, y3, y4], [m1, m2], [d1, d2], _, _, _, hs, rfl, rfl, rfl,
        numeral_digitsValue ?_, numeral_digitsValue ?_, numeral_digitsValue ?_, hmonth, hday⟩
      · simp [hy1, hy2, hy3, hy4]
      · simp [hm1, hm2]
      · simp [hd1, hd2]
    · exact absurd h Bool.false_ne_true
  · rintro ⟨year, month, day, y, m, d, hs, hyear, hmonth, hday, hy, hm, hd, hmbound, hdbound⟩
    match year, hyear, month, hmonth, day, hday with
    | [y1, y2, y3, y4], _, [m1, m2], _, [d1, d2], _ =>
      have hyd := hy.all_isDigit
      have hmd := hm.all_isDigit
      have hdd := hd.all_isDigit
      rw [← hm.eq_digitsValue] at hmbound
      rw [← hd.eq_digitsValue] at hdbound
      simp only [List.all_cons, List.all_nil, Bool.and_eq_true] at hyd hmd hdd
      rw [hs]
      simp [isDateChars, hyd, hmd, hdd, hmbound, hdbound]

/-! ## Versions -/

/-- Three non-empty runs of ASCII digits with dots between, and their numbers. -/
def Version (cs : List Char) (v r c : Nat) : Prop :=
  ∃ version release correction : List Char,
    cs = version ++ '.' :: release ++ '.' :: correction ∧
    Numeral version v ∧ Numeral release r ∧ Numeral correction c

/-- There is at least one part between dots. -/
theorem splitDots_ne_nil (cs : List Char) : splitDots cs ≠ [] := by
  unfold splitDots
  split
  · exact nofun
  · exact nofun
  · split <;> exact nofun

/-- The pieces with dots between them are the text that was cut. -/
theorem intercalate_splitDots (cs : List Char) : ['.'].intercalate (splitDots cs) = cs := by
  induction cs using splitDots.induct with
  | case1 => rfl
  | case2 cs ih =>
    rw [splitDots]
    obtain ⟨run, runs, hruns⟩ := List.exists_cons_of_ne_nil (splitDots_ne_nil cs)
    rw [hruns] at ih ⊢
    rw [List.intercalate_cons_cons, ih]
    rfl
  | case3 c cs hc hnil ih => exact absurd hnil (splitDots_ne_nil cs)
  | case4 c cs hc run runs hruns ih =>
    rw [splitDots, hruns]
    · rw [hruns] at ih
      cases runs with
      | nil => simpa using ih
      | cons next rest => simpa [List.intercalate_cons_cons] using ih
    · exact hc

/-- A text without a dot is one part. -/
theorem splitDots_of_not_mem {cs : List Char} (h : '.' ∉ cs) : splitDots cs = [cs] := by
  induction cs with
  | nil => rfl
  | cons c cs ih =>
    rw [List.mem_cons, not_or] at h
    rw [splitDots, ih h.2]
    rintro rfl
    exact h.1 rfl

/-- What stands in front of the first dot is the first part. -/
theorem splitDots_append {cs : List Char} (h : '.' ∉ cs) (rest : List Char) :
    splitDots (cs ++ '.' :: rest) = cs :: splitDots rest := by
  induction cs with
  | nil => rfl
  | cons c cs ih =>
    rw [List.mem_cons, not_or] at h
    rw [List.cons_append, splitDots, ih h.2]
    rintro rfl
    exact h.1 rfl

/-- There is no dot in a run of digits. -/
theorem dot_not_mem_of_isDigits {cs : List Char} (h : isDigits cs = true) : '.' ∉ cs := by
  intro hmem
  have hdot := (isDigits_iff.mp h).2 '.' hmem
  exact absurd hdot.1 (by decide)

/-- A version is read from three runs of digits with dots between them. -/
theorem readVersion_eq_some_iff {s : String} {v : VersionText} :
    readVersion s = some v ↔
      s.toList = v.version ++ '.' :: v.release ++ '.' :: v.correction ∧
      isDigits v.version = true ∧ isDigits v.release = true ∧ isDigits v.correction = true := by
  unfold readVersion
  constructor
  · intro h
    split at h
    · next version release correction hruns =>
      split at h
      · next hdigits =>
        cases h
        simp only [Bool.and_eq_true] at hdigits
        refine ⟨?_, hdigits.1.1, hdigits.1.2, hdigits.2⟩
        have hcut := intercalate_splitDots s.toList
        rw [hruns] at hcut
        rw [← hcut]
        simp [List.intercalate_cons_cons]
      · cases h
    · cases h
  · rintro ⟨hs, hv, hr, hc⟩
    have hruns : splitDots s.toList = [v.version, v.release, v.correction] := by
      rw [hs, List.append_assoc, List.cons_append, splitDots_append (dot_not_mem_of_isDigits hv),
        splitDots_append (dot_not_mem_of_isDigits hr),
        splitDots_of_not_mem (dot_not_mem_of_isDigits hc)]
    simp [hruns, hv, hr, hc]

/-! ## Names -/

/-- The letters of ASCII. -/
def Letter (c : Char) : Prop := ('A' ≤ c ∧ c ≤ 'Z') ∨ ('a' ≤ c ∧ c ≤ 'z')

/-- A letter or an underscore, and then letters, digits, underscores, dots and hyphens. -/
def Identifier (cs : List Char) : Prop :=
  ∃ first rest, cs = first :: rest ∧ (Letter first ∨ first = '_') ∧
    ∀ c ∈ rest, Letter c ∨ ('0' ≤ c ∧ c ≤ '9') ∨ c = '_' ∨ c = '.' ∨ c = '-'

/-- An identifier, or two of them with one colon between. -/
def Reference (cs : List Char) : Prop :=
  Identifier cs ∨ ∃ qualifier name, Identifier qualifier ∧ Identifier name ∧
    cs = qualifier ++ ':' :: name

/-- The letters of ASCII are recognised. -/
theorem isAlpha_iff {c : Char} : c.isAlpha = true ↔ Letter c := by
  have hupper : c.isUpper = decide ('A'.val ≤ c.val ∧ c.val ≤ 'Z'.val) := rfl
  have hlower : c.isLower = (decide ('a'.val ≤ c.val) && decide (c.val ≤ 'z'.val)) := rfl
  have halpha : c.isAlpha = (c.isUpper || c.isLower) := rfl
  rw [halpha, hupper, hlower, Bool.or_eq_true, Bool.and_eq_true, decide_eq_true_eq,
    decide_eq_true_eq, decide_eq_true_eq]
  rfl

/-- The test on characters accepts identifiers. -/
theorem isIdentifierChars_iff {cs : List Char} :
    isIdentifierChars cs = true ↔ Identifier cs := by
  have hrest (c : Char) : isIdentifierRest c = true ↔
      Letter c ∨ ('0' ≤ c ∧ c ≤ '9') ∨ c = '_' ∨ c = '.' ∨ c = '-' := by
    simp only [isIdentifierRest, Char.isAlphanum, Char.isDigit, Bool.or_eq_true,
      Bool.and_eq_true, isAlpha_iff, decide_eq_true_eq, beq_iff_eq, Char.le_def, ge_iff_le,
      or_assoc]
  cases cs with
  | nil => exact ⟨nofun, fun ⟨_, _, h, _⟩ => nomatch h⟩
  | cons first rest =>
    simp only [isIdentifierChars, isIdentifierStart, Bool.and_eq_true, Bool.or_eq_true,
      isAlpha_iff, beq_iff_eq, List.all_eq_true, hrest]
    constructor
    · rintro ⟨hfirst, hall⟩
      exact ⟨first, rest, rfl, hfirst, hall⟩
    · rintro ⟨_, _, heq, hfirst, hall⟩
      cases heq
      exact ⟨hfirst, hall⟩

/-- The test accepts identifiers. -/
theorem isIdentifier_iff {s : String} : isIdentifier s = true ↔ Identifier s.toList :=
  isIdentifierChars_iff

/-- The test accepts references. -/
theorem isReference_iff {s : String} : isReference s = true ↔ Reference s.toList := by
  unfold isReference
  constructor
  · intro h
    split at h
    · next qualifier name hsplit =>
      rw [Bool.and_eq_true, isIdentifierChars_iff, isIdentifierChars_iff] at h
      exact .inr ⟨qualifier, name, h.1, h.2, (splitChars_eq_some hsplit).1⟩
    · exact .inl (isIdentifierChars_iff.mp h)
  · rintro (h | ⟨qualifier, name, hqualifier, hname, hs⟩)
    · rw [← isIdentifierChars_iff] at h
      rw [splitChars_eq_none_iff.mpr (colon_not_mem_of_isIdentifierChars h)]
      exact h
    · rw [← isIdentifierChars_iff] at hqualifier hname
      rw [hs, splitChars_append (colon_not_mem_of_isIdentifierChars hqualifier)]
      exact Bool.and_eq_true_iff.mpr ⟨hqualifier, hname⟩

end Text

/-! ## Conditions -/

namespace Condition

/-- A blank character ends a word. -/
theorem Token.scan_cons_of_isBlank {c : Char} (h : Text.isBlank c = true)
    (word cs : List Char) : scan word (c :: cs) = ofWord? word ++ scan [] cs := by
  rw [scan, if_neg, if_neg, if_pos h]
  · rintro rfl
    exact absurd h (by decide)
  · rintro rfl
    exact absurd h (by decide)

/-- A blank end ends a word and nothing else. -/
theorem Token.scan_of_blank {cs : List Char} (h : Text.Blank cs) (word : List Char) :
    scan word cs = ofWord? word := by
  induction cs generalizing word with
  | nil => rfl
  | cons c cs ih =>
    rw [scan_cons_of_isBlank (h c List.mem_cons_self),
      ih fun d hd => h d (List.mem_cons_of_mem c hd)]
    exact List.append_nil _

/-- Blank characters in front change no token. -/
theorem Token.scan_blank_append {before : List Char} (h : Text.Blank before)
    (cs : List Char) : scan [] (before ++ cs) = scan [] cs := by
  induction before with
  | nil => rfl
  | cons c before ih =>
    rw [List.cons_append, scan_cons_of_isBlank (h c List.mem_cons_self),
      ih fun d hd => h d (List.mem_cons_of_mem c hd)]
    rfl

/-- Blank characters behind change no token. -/
theorem Token.scan_append_blank {after : List Char} (h : Text.Blank after)
    (word cs : List Char) : scan word (cs ++ after) = scan word cs := by
  induction cs generalizing word with
  | nil => exact scan_of_blank h word
  | cons c cs ih => simp only [List.cons_append, scan, ih]

/-- Blank ends do not matter to a condition. -/
theorem parse_trim (s : String) : parse (Text.trim s) = parse s := by
  obtain ⟨-, before, after, hbefore, hafter, hs⟩ := Text.trims_iff.mpr (rfl : Text.trim s = _)
  rw [parse, parse, Token.ofText, Token.ofText, hs, Token.scan_append_blank hafter,
    Token.scan_blank_append hbefore]

end Condition
end StatementForest
