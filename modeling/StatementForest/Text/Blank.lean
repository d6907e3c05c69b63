/-!
# Blank characters and trimming

Arguments are read without the blank characters around them.  A character is
blank when it has the Unicode property `White_Space`.  The zero width space
and the byte order mark do not have it.

Main results:

- `trim_of_unpadded`: a text without blank ends is left as it is.
- `splitAtFirst_eq_none_iff`: a text is not split exactly when it lacks the
  separator.
-/

namespace StatementForest
namespace Text

/-- The characters with the Unicode property `White_Space`. -/
def isBlank (c : Char) : Bool :=
  let n := c.toNat
  (0x09 ≤ n && n ≤ 0x0d) || n == 0x20 || n == 0x85 || n == 0xa0 || n == 0x1680 ||
    (0x2000 ≤ n && n ≤ 0x200a) || n == 0x2028 || n == 0x2029 || n == 0x202f ||
    n == 0x205f || n == 0x3000

/-- Drop the blank characters at both ends of a character list. -/
def trimChars (cs : List Char) : List Char :=
  ((cs.dropWhile isBlank).reverse.dropWhile isBlank).reverse

/-- A text without the blank characters at its ends. -/
def trim (s : String) : String :=
  String.ofList (trimChars s.toList)

/-- A text is unpadded when neither its first nor its last character is blank. -/
def Unpadded (cs : List Char) : Prop :=
  (∀ c, cs.head? = some c → isBlank c = false) ∧
    (∀ c, cs.getLast? = some c → isBlank c = false)

/-- Nothing is taken away in front of a character that stays. -/
theorem dropWhile_eq_self {p : Char → Bool} {cs : List Char}
    (h : ∀ c, cs.head? = some c → p c = false) : cs.dropWhile p = cs := by
  cases cs with
  | nil => rfl
  | cons c cs => simp [h c rfl]

/-- Without blank ends nothing is taken away. -/
theorem trimChars_of_unpadded {cs : List Char} (h : Unpadded cs) : trimChars cs = cs := by
  have hrev : cs.reverse.dropWhile isBlank = cs.reverse :=
    dropWhile_eq_self fun c hc => h.2 c (by simpa using hc)
  simp [trimChars, dropWhile_eq_self h.1, hrev]

/-- A text without blank ends stays as it is. -/
theorem trim_of_unpadded {s : String} (h : Unpadded s.toList) : trim s = s := by
  simp [trim, trimChars_of_unpadded h]

/-! ### Splitting at a separator -/

/-- The texts before and after the first occurrence of `sep`. -/
def splitChars (sep : Char) : List Char → Option (List Char × List Char)
  | [] => none
  | c :: cs =>
    if c = sep then some ([], cs)
    else (splitChars sep cs).map fun (before, after) => (c :: before, after)

/-- The texts before and after the first occurrence of `sep`, if there is one. -/
def splitAtFirst (sep : Char) (s : String) : Option (String × String) :=
  (splitChars sep s.toList).map fun (before, after) =>
    (String.ofList before, String.ofList after)

/-- The two parts are what stands in front of the first separator and behind it. -/
theorem splitChars_eq_some {sep : Char} {cs before after : List Char}
    (h : splitChars sep cs = some (before, after)) :
    cs = before ++ sep :: after ∧ sep ∉ before := by
  induction cs generalizing before with
  | nil => simp [splitChars] at h
  | cons c cs ih =>
    by_cases hc : c = sep
    · simp only [splitChars, hc, if_true, Option.some.injEq, Prod.mk.injEq] at h
      obtain ⟨rfl, rfl⟩ := h
      simp [hc]
    · simp only [splitChars, hc, if_false, Option.map_eq_some_iff] at h
      obtain ⟨⟨b, a⟩, hsplit, heq⟩ := h
      simp only [Prod.mk.injEq] at heq
      obtain ⟨rfl, rfl⟩ := heq
      obtain ⟨rfl, hmem⟩ := ih hsplit
      simp [hmem, Ne.symm hc]

/-- There are no parts without a separator. -/
theorem splitChars_eq_none_iff {sep : Char} {cs : List Char} :
    splitChars sep cs = none ↔ sep ∉ cs := by
  induction cs with
  | nil => simp [splitChars]
  | cons c cs ih =>
    by_cases hc : c = sep
    · simp [splitChars, hc]
    · simp [splitChars, hc, ih, Ne.symm hc]

/-- A text with a separator has the two parts around the first one. -/
theorem splitChars_append {sep : Char} {before : List Char} (h : sep ∉ before)
    (after : List Char) : splitChars sep (before ++ sep :: after) = some (before, after) := by
  induction before with
  | nil => simp [splitChars]
  | cons c cs ih =>
    rw [List.mem_cons, not_or] at h
    simp [splitChars, Ne.symm h.1, ih h.2]

/-- There are no parts of a text without a separator. -/
theorem splitAtFirst_eq_none_iff {sep : Char} {s : String} :
    splitAtFirst sep s = none ↔ sep ∉ s.toList := by
  simp [splitAtFirst, splitChars_eq_none_iff]

/-- The two parts of a text stand in front of the first separator and behind it. -/
theorem splitAtFirst_eq_some_iff {sep : Char} {s before after : String} :
    splitAtFirst sep s = some (before, after) ↔
      s.toList = before.toList ++ sep :: after.toList ∧ sep ∉ before.toList := by
  simp only [splitAtFirst, Option.map_eq_some_iff, Prod.exists, Prod.mk.injEq]
  constructor
  · rintro ⟨b, a, hsplit, rfl, rfl⟩
    simpa using splitChars_eq_some hsplit
  · rintro ⟨hs, hnot⟩
    exact ⟨_, _, hs ▸ splitChars_append hnot _, String.ofList_toList, String.ofList_toList⟩

end Text
end StatementForest
