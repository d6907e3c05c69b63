import StatementForest.Condition.Derivation
import StatementForest.Condition.Parser

/-!
# Reading feature conditions

The tokens of a text are found by one scan, and the readers accept exactly the token
lists that the grammar derives, up to the depth at which factors may be nested.

Main results:

- Theorem `Condition.Token.spells_iff`: a text has one list of tokens, the one that is scanned.
- Theorem `Condition.Derivation.read_tokens`: what is derived is read.
- Theorem `Condition.Derivation.exists_of_readFactor`: what is read is derived.
- Theorem `Condition.Derivation.eq_of_tokens_append`: the grammar is not ambiguous, whatever
  tokens follow.
- Theorem `Condition.parse_iff_derived`: reading and deriving are the same.
-/

namespace StatementForest
namespace Condition

/-! ## Tokens -/

namespace Token

/-- A word ends at a parenthesis or a blank character. -/
theorem isWordChar_eq_false_iff {c : Char} :
    isWordChar c = false ↔ c = '(' ∨ c = ')' ∨ Text.isBlank c = true := by
  by_cases ho : c = '(' <;> by_cases hc : c = ')' <;> simp [isWordChar, ho, hc]

/-- A character of a word becomes part of the word that is scanned. -/
theorem scan_cons {c : Char} (h : isWordChar c = true) (word cs : List Char) :
    scan word (c :: cs) = scan (word ++ [c]) cs := by
  simp only [isWordChar, Bool.and_eq_true, bne_iff_ne, Bool.not_eq_true'] at h
  obtain ⟨⟨hopen, hclose⟩, hblank⟩ := h
  rw [scan, if_neg hopen, if_neg hclose, if_neg (by simp [hblank])]

/-- A longer word is scanned on as one. -/
theorem scan_append {more : List Char} (h : ∀ c ∈ more, isWordChar c = true)
    (word cs : List Char) : scan word (more ++ cs) = scan (word ++ more) cs := by
  induction more generalizing word with
  | nil => rw [List.nil_append, List.append_nil]
  | cons c more ih =>
    have hmore : ∀ d ∈ more, isWordChar d = true := fun d hd => h d (List.mem_cons_of_mem _ hd)
    rw [List.cons_append, scan_cons (h c List.mem_cons_self), ih hmore, List.append_assoc,
      List.singleton_append]

/-- A word ends before a character that is none of words. -/
theorem scan_of_end {cs : List Char} (h : ∀ c, cs.head? = some c → isWordChar c = false)
    (word : List Char) : scan word cs = ofWord? word ++ scan [] cs := by
  have hempty : ofWord? [] = [] := rfl
  cases cs with
  | nil => rw [scan, scan, hempty, List.append_nil]
  | cons c cs =>
    have hc := isWordChar_eq_false_iff.mp (h c rfl)
    rw [scan, scan]
    split
    · rw [hempty, List.nil_append]
    split
    · rw [hempty, List.nil_append]
    split
    · rw [hempty, List.nil_append]
    · simp_all

/-- A word that is not empty is one token. -/
theorem ofWord?_of_ne_nil {word : List Char} (h : word ≠ []) : ofWord? word = [ofWord word] := by
  cases word with
  | nil => exact absurd rfl h
  | cons c cs => rfl

/-- What is spelled is scanned. -/
theorem Spells.eq_scan {cs : List Char} {ts : List Token} (h : Spells cs ts) :
    ts = scan [] cs := by
  induction h with
  | nil => rfl
  | @blank c cs ts hc _ ih =>
    rw [ih, scan, if_neg, if_neg, if_pos hc]
    · rfl
    · rintro rfl
      exact absurd hc (by decide)
    · rintro rfl
      exact absurd hc (by decide)
  | opening _ ih => rw [ih]; rfl
  | closing _ ih => rw [ih]; rfl
  | word hne hword hend _ ih =>
    rw [scan_append hword, List.nil_append, scan_of_end hend, ofWord?_of_ne_nil hne, ih]
    rfl

/-- The tokens that are scanned behind the beginning of a word. -/
theorem spells_scan {word : List Char} (hword : ∀ c ∈ word, isWordChar c = true)
    (cs : List Char) : Spells (word ++ cs) (scan word cs) := by
  -- a word that is not empty ends where its scan ends
  have hclose : ∀ {word : List Char}, (∀ c ∈ word, isWordChar c = true) →
      ∀ {cs : List Char} {ts : List Token}, Spells cs ts →
        (∀ c, cs.head? = some c → isWordChar c = false) →
        Spells (word ++ cs) (ofWord? word ++ ts) := by
    intro word hword cs ts h hend
    by_cases hne : word = []
    · subst hne
      exact h
    · rw [ofWord?_of_ne_nil hne]
      exact .word hne hword hend h
  induction cs generalizing word with
  | nil => simpa [scan] using hclose hword .nil (by simp)
  | cons c cs ih =>
    by_cases hc : isWordChar c = true
    · have hmore : ∀ d ∈ word ++ [c], isWordChar d = true := by
        intro d hd
        obtain hd | hd := List.mem_append.mp hd
        · exact hword d hd
        · rw [List.mem_singleton.mp hd]
          exact hc
      rw [scan_cons hc]
      have hspells := ih hmore
      rwa [List.append_assoc, List.singleton_append] at hspells
    · rw [Bool.not_eq_true] at hc
      have hend : ∀ d, (c :: cs).head? = some d → isWordChar d = false := by
        rintro d hd
        cases hd
        exact hc
      have hrest : Spells cs (scan [] cs) := ih (fun _ hd => absurd hd List.not_mem_nil)
      rw [scan_of_end hend]
      refine hclose hword ?_ hend
      obtain rfl | rfl | hblank := isWordChar_eq_false_iff.mp hc
      · exact .opening hrest
      · exact .closing hrest
      · have hscan : scan [] (c :: cs) = scan [] cs := (Spells.blank hblank hrest).eq_scan.symm
        rw [hscan]
        exact .blank hblank hrest

/-- A text has one list of tokens. -/
theorem spells_iff {s : String} {ts : List Token} : Spells s.toList ts ↔ ts = ofText s := by
  constructor
  · exact Spells.eq_scan
  · rintro rfl
    exact spells_scan (fun _ hd => absurd hd List.not_mem_nil) s.toList

end Token

/-! ## Readers -/

/-- A reader returns a value and leaves some tokens over. -/
def Reads {α : Type} {ts : List Token} (result : Read α ts) (a : α) (rest : List Token) : Prop :=
  ∃ h, result = .ok (a, ⟨rest, h⟩)

section Chain

variable {α : Type} {separator : Token} {item : (ts : List Token) → Read α ts}
  {ts rest : List Token}

/-- A chain ends where no separator follows an item. -/
theorem Reads.last {x : α} (h : Reads (item ts) x rest) (hend : rest.head? ≠ some separator) :
    Reads (readChain separator item ts) [x] rest := by
  obtain ⟨hlt, heq⟩ := h
  refine ⟨hlt, ?_⟩
  rw [readChain, heq]
  cases rest with
  | nil => rfl
  | cons t rest => exact if_neg fun ht => hend (by rw [List.head?_cons, ht])

/-- A chain goes on behind a separator. -/
theorem Reads.more {x : α} {xs : List α} {mid : List Token}
    (h : Reads (item ts) x (separator :: mid))
    (hrest : Reads (readChain separator item mid) xs rest) :
    Reads (readChain separator item ts) (x :: xs) rest := by
  obtain ⟨hlt, heq⟩ := h
  obtain ⟨hlt', heq'⟩ := hrest
  refine ⟨by simp only [List.length_cons] at hlt; omega, ?_⟩
  rw [readChain, heq]
  simp only [if_true]
  rw [heq']

/-- What a chain is when it has been read. -/
theorem reads_chain_cases {xs : List α} (h : Reads (readChain separator item ts) xs rest) :
    (∃ x, xs = [x] ∧ Reads (item ts) x rest) ∨
      ∃ x ys mid, xs = x :: ys ∧ Reads (item ts) x (separator :: mid) ∧
        Reads (readChain separator item mid) ys rest := by
  obtain ⟨hlt, heq⟩ := h
  rw [readChain] at heq
  split at heq
  · cases heq
  · next x h' hitem =>
    cases heq
    exact .inl ⟨x, rfl, h', hitem⟩
  · next x t mid h' hitem =>
    split at heq
    · next hsep =>
      subst hsep
      split at heq
      · cases heq
      · next ys rest' h'' hmid =>
        cases heq
        exact .inr ⟨x, ys, mid, rfl, ⟨h', hitem⟩, h'', hmid⟩
    · cases heq
      exact .inl ⟨x, rfl, h', hitem⟩

end Chain

/-- Read a term, given how its factors are read. -/
def readTerm (factor : (ts : List Token) → Read Expression ts) (ts : List Token) :
    Read Expression ts :=
  (readChain .and factor ts).map fun (es, rest) => (joined .all es, rest)

/-- A condition is read as a chain of terms. -/
theorem readCondition_eq (factor : (ts : List Token) → Read Expression ts) (ts : List Token) :
    readCondition factor ts =
      (readChain .or (readTerm factor) ts).map fun (es, rest) => (joined .any es, rest) := rfl

/-- Joining the operands of a chain does not change which tokens are left. -/
theorem reads_map_iff {α β : Type} {ts rest : List Token} {result : Read α ts} {f : α → β}
    {b : β} : Reads (result.map fun (a, rest) => (f a, rest)) b rest ↔
      ∃ a, f a = b ∧ Reads result a rest := by
  constructor
  · rintro ⟨h, heq⟩
    rcases result with fault | ⟨a, rest', h'⟩
    · cases heq
    · cases heq
      exact ⟨a, rfl, h', rfl⟩
  · rintro ⟨a, rfl, h, rfl⟩
    exact ⟨h, rfl⟩

/-! ### Factors -/

section Factor

variable {levels : Nat} {ts rest : List Token} {e : Expression}

/-- A name is read as a factor. -/
theorem reads_name {name : String} (h : Text.isReference name = true) :
    Reads (readFactor (levels + 1) (.name name :: ts)) (.feature name) ts :=
  ⟨by simp, if_pos h⟩

/-- A factor behind `not` is read as its negation. -/
theorem reads_not (h : Reads (readFactor levels ts) e rest) :
    Reads (readFactor (levels + 1) (.not :: ts)) (.not e) rest := by
  obtain ⟨hlt, heq⟩ := h
  refine ⟨Nat.lt_succ_of_lt hlt, ?_⟩
  rw [readFactor, heq]

/-- A condition in parentheses is read as a factor. -/
theorem reads_group (h : Reads (readCondition (readFactor levels) ts) e (.closing :: rest)) :
    Reads (readFactor (levels + 1) (.opening :: ts)) e rest := by
  obtain ⟨hlt, heq⟩ := h
  refine ⟨by simp only [List.length_cons] at hlt ⊢; omega, ?_⟩
  rw [readFactor, heq]

/-- What a factor is when it has been read. -/
theorem reads_factor_cases (h : Reads (readFactor levels ts) e rest) :
    ∃ inner, levels = inner + 1 ∧
      ((∃ name, ts = .name name :: rest ∧ e = .feature name ∧ Text.isReference name = true) ∨
        (∃ ts' e', ts = .not :: ts' ∧ e = .not e' ∧ Reads (readFactor inner ts') e' rest) ∨
        ∃ ts', ts = .opening :: ts' ∧
          Reads (readCondition (readFactor inner) ts') e (.closing :: rest)) := by
  obtain ⟨hlt, heq⟩ := h
  unfold readFactor at heq
  split at heq
  · cases heq
  · cases heq
  · next inner ts' =>
    split at heq
    · cases heq
    · next e' rest' h' hread =>
      cases heq
      exact ⟨inner, rfl, .inr (.inl ⟨ts', e', rfl, rfl, h', hread⟩)⟩
  · next inner ts' =>
    split at heq
    · cases heq
    · next e' rest' h' hread =>
      cases heq
      exact ⟨inner, rfl, .inr (.inr ⟨ts', rfl, h', hread⟩)⟩
    · cases heq
    · cases heq
  · next inner name ts' =>
    split at heq
    · next href =>
      cases heq
      exact ⟨inner, rfl, .inl ⟨name, rfl, rfl, href⟩⟩
    · cases heq
  · cases heq
  · cases heq

end Factor

namespace Derivation

variable {c : Category} {levels : Nat} {rest : List Token}

/-! ## What is derived is read -/

/-- The names of a derivation are references, and its factors are not nested too deep. -/
structure Fits (levels : Nat) (d : Derivation c) : Prop where
  isReference : ∀ name ∈ d.names, Text.isReference name = true
  nesting : d.nesting < levels

/-- The expression of a term joins its operands. -/
theorem joined_all_operands (d : Derivation .term) : joined .all d.operands = d.expression := by
  cases d with
  | factor last => rfl
  | and first rest =>
    obtain ⟨e, es, h⟩ := List.exists_cons_of_ne_nil rest.operands_ne_nil
    simp only [operands, expression, h, joined]

/-- The expression of a condition joins its operands. -/
theorem joined_any_operands (d : Derivation .condition) :
    joined .any d.operands = d.expression := by
  cases d with
  | term last => rfl
  | or first rest =>
    obtain ⟨e, es, h⟩ := List.exists_cons_of_ne_nil rest.operands_ne_nil
    simp only [operands, expression, h, joined]

/-- What the tokens behind a derivation must not begin with. -/
def Ends : Category → List Token → Prop
  | .factor, _ => True
  | .term, rest => rest.head? ≠ some .and
  | .condition, rest => rest.head? ≠ some .and ∧ rest.head? ≠ some .or

/-- What a reader of a category makes of a derivation. -/
def IsRead (levels : Nat) : {c : Category} → Derivation c → List Token → Prop
  | .factor, d, rest => Reads (readFactor levels (d.tokens ++ rest)) d.expression rest
  | .term, d, rest =>
    Reads (readChain .and (readFactor levels) (d.tokens ++ rest)) d.operands rest
  | .condition, d, rest =>
    Reads (readChain .or (readTerm (readFactor levels)) (d.tokens ++ rest)) d.operands rest

/-- What is derived is read, by induction on the derivation. -/
theorem read_tokens (d : Derivation c) (hfits : d.Fits levels) (hend : Ends c rest) :
    d.IsRead levels rest := by
  induction d generalizing levels rest with
  | name text =>
    obtain ⟨hnames, hnesting⟩ := hfits
    obtain ⟨inner, rfl⟩ := Nat.exists_eq_add_one_of_ne_zero (Nat.ne_of_gt hnesting)
    exact reads_name (hnames text List.mem_cons_self)
  | not operand ih =>
    obtain ⟨hnames, hnesting⟩ := hfits
    obtain ⟨inner, rfl⟩ := Nat.exists_eq_add_one_of_ne_zero (Nat.ne_zero_of_lt hnesting)
    exact reads_not (ih ⟨hnames, Nat.lt_of_succ_lt_succ hnesting⟩ trivial)
  | group content ih =>
    obtain ⟨hnames, hnesting⟩ := hfits
    obtain ⟨inner, rfl⟩ := Nat.exists_eq_add_one_of_ne_zero (Nat.ne_zero_of_lt hnesting)
    have hcontent : content.IsRead inner (.closing :: rest) :=
      ih ⟨hnames, Nat.lt_of_succ_lt_succ hnesting⟩ (by simp [Ends])
    have htokens : (group content).tokens ++ rest =
        .opening :: (content.tokens ++ .closing :: rest) := by simp [tokens]
    change Reads (readFactor (inner + 1) ((group content).tokens ++ rest)) _ rest
    rw [htokens]
    apply reads_group
    rw [readCondition_eq, reads_map_iff]
    exact ⟨content.operands, content.joined_any_operands, hcontent⟩
  | factor last ih => exact (ih ⟨hfits.isReference, hfits.nesting⟩ trivial).last hend
  | and first more ihfirst ihmore =>
    obtain ⟨hnames, hnesting⟩ := hfits
    simp only [names, List.forall_mem_append] at hnames
    rw [nesting, Nat.max_lt] at hnesting
    have hfirst : first.IsRead levels (.and :: (more.tokens ++ rest)) :=
      ihfirst ⟨hnames.1, hnesting.1⟩ trivial
    have htokens : (and first more).tokens ++ rest =
        first.tokens ++ .and :: (more.tokens ++ rest) := by simp [tokens]
    change Reads (readChain .and (readFactor levels) ((and first more).tokens ++ rest)) _ rest
    rw [htokens]
    exact Reads.more hfirst (ihmore ⟨hnames.2, hnesting.2⟩ hend)
  | term last ih =>
    refine Reads.last ?_ hend.2
    rw [readTerm, reads_map_iff]
    exact ⟨last.operands, last.joined_all_operands, ih ⟨hfits.isReference, hfits.nesting⟩ hend.1⟩
  | or first more ihfirst ihmore =>
    obtain ⟨hnames, hnesting⟩ := hfits
    simp only [names, List.forall_mem_append] at hnames
    rw [nesting, Nat.max_lt] at hnesting
    have hfirst : first.IsRead levels (.or :: (more.tokens ++ rest)) :=
      ihfirst ⟨hnames.1, hnesting.1⟩ (by simp [Ends])
    have htokens : (or first more).tokens ++ rest =
        first.tokens ++ .or :: (more.tokens ++ rest) := by simp [tokens]
    change Reads (readChain .or (readTerm (readFactor levels))
      ((or first more).tokens ++ rest)) _ rest
    rw [htokens]
    refine Reads.more ?_ (ihmore ⟨hnames.2, hnesting.2⟩ hend)
    rw [readTerm, reads_map_iff]
    exact ⟨first.operands, first.joined_all_operands, hfirst⟩

/-! ## What is read is derived -/

/-- A derivation of what was read from some tokens. -/
structure Explains (levels : Nat) (ts rest : List Token) (d : Derivation c) : Prop where
  tokens_append : d.tokens ++ rest = ts
  fits : d.Fits levels

/-- A chain of factors is derived as a term, given that factors are derived. -/
theorem exists_of_readTerm
    (hfactor : ∀ ts e rest, Reads (readFactor levels ts) e rest →
      ∃ d : Derivation .factor, d.Explains levels ts rest ∧ d.expression = e)
    {ts : List Token} {es : List Expression}
    (h : Reads (readChain .and (readFactor levels) ts) es rest) :
    ∃ d : Derivation .term, d.Explains levels ts rest ∧ d.operands = es := by
  induction es generalizing ts with
  | nil => obtain ⟨_, h, _⟩ | ⟨_, _, _, h, _⟩ := reads_chain_cases h <;> cases h
  | cons e es ih =>
    obtain ⟨_, heq, hlast⟩ | ⟨_, _, mid, heq, hfirst, hmore⟩ := reads_chain_cases h
    · cases heq
      obtain ⟨d, hd, rfl⟩ := hfactor ts e rest hlast
      exact ⟨.factor d, ⟨hd.tokens_append, hd.fits.isReference, hd.fits.nesting⟩, rfl⟩
    · cases heq
      obtain ⟨d, hd, rfl⟩ := hfactor ts e _ hfirst
      obtain ⟨d', hd', rfl⟩ := ih hmore
      refine ⟨.and d d', ⟨?_, ?_, ?_⟩, rfl⟩
      · rw [tokens, List.append_assoc, List.cons_append, hd'.tokens_append, hd.tokens_append]
      · exact List.forall_mem_append.mpr ⟨hd.fits.isReference, hd'.fits.isReference⟩
      · exact Nat.max_lt.mpr ⟨hd.fits.nesting, hd'.fits.nesting⟩

/-- A chain of terms is derived as a condition, given that factors are derived. -/
theorem exists_of_readCondition
    (hfactor : ∀ ts e rest, Reads (readFactor levels ts) e rest →
      ∃ d : Derivation .factor, d.Explains levels ts rest ∧ d.expression = e)
    {ts : List Token} {es : List Expression}
    (h : Reads (readChain .or (readTerm (readFactor levels)) ts) es rest) :
    ∃ d : Derivation .condition, d.Explains levels ts rest ∧ d.operands = es := by
  induction es generalizing ts with
  | nil => obtain ⟨_, h, _⟩ | ⟨_, _, _, h, _⟩ := reads_chain_cases h <;> cases h
  | cons e es ih =>
    obtain ⟨_, heq, hlast⟩ | ⟨_, _, mid, heq, hfirst, hmore⟩ := reads_chain_cases h
    · cases heq
      obtain ⟨_, rfl, hterm⟩ := reads_map_iff.mp hlast
      obtain ⟨d, hd, rfl⟩ := exists_of_readTerm hfactor hterm
      refine ⟨.term d, ⟨hd.tokens_append, hd.fits.isReference, hd.fits.nesting⟩, ?_⟩
      rw [operands, joined_all_operands]
    · cases heq
      obtain ⟨_, rfl, hterm⟩ := reads_map_iff.mp hfirst
      obtain ⟨d, hd, rfl⟩ := exists_of_readTerm hfactor hterm
      obtain ⟨d', hd', rfl⟩ := ih hmore
      refine ⟨.or d d', ⟨?_, ?_, ?_⟩, ?_⟩
      · rw [tokens, List.append_assoc, List.cons_append, hd'.tokens_append, hd.tokens_append]
      · exact List.forall_mem_append.mpr ⟨hd.fits.isReference, hd'.fits.isReference⟩
      · exact Nat.max_lt.mpr ⟨hd.fits.nesting, hd'.fits.nesting⟩
      · rw [operands, joined_all_operands]

/-- What is read as a factor is derived, by induction on how deep factors may be nested. -/
theorem exists_of_readFactor {ts : List Token} {e : Expression}
    (h : Reads (readFactor levels ts) e rest) :
    ∃ d : Derivation .factor, d.Explains levels ts rest ∧ d.expression = e := by
  induction levels generalizing ts e rest with
  | zero =>
    obtain ⟨inner, hlevels, _⟩ := reads_factor_cases h
    cases hlevels
  | succ levels ih =>
    obtain ⟨_, hlevels, hcases⟩ := reads_factor_cases h
    cases hlevels
    obtain ⟨name, rfl, rfl, href⟩ | ⟨ts', e', rfl, rfl, hread⟩ | ⟨ts', rfl, hread⟩ := hcases
    · refine ⟨.name name, ⟨rfl, ?_, Nat.succ_pos levels⟩, rfl⟩
      rintro n hn
      rwa [List.mem_singleton.mp hn]
    · obtain ⟨d, hd, rfl⟩ := ih hread
      refine ⟨.not d, ⟨?_, hd.fits.isReference, Nat.succ_lt_succ hd.fits.nesting⟩, rfl⟩
      rw [tokens, List.cons_append, hd.tokens_append]
    · rw [readCondition_eq, reads_map_iff] at hread
      obtain ⟨_, rfl, hread⟩ := hread
      obtain ⟨d, hd, rfl⟩ := exists_of_readCondition (fun _ _ _ => ih) hread
      refine ⟨.group d, ⟨?_, hd.fits.isReference, Nat.succ_lt_succ hd.fits.nesting⟩, ?_⟩
      · simpa [tokens] using hd.tokens_append
      · rw [expression, joined_any_operands]

/-! ## Ambiguity -/

/-- A list of tokens begins with at most one derivation of a category, as long as none
of the operators goes on with its chain. -/
theorem eq_of_tokens_append {d d' : Derivation c} {rest rest' : List Token} (hend : Ends c rest)
    (hend' : Ends c rest') (h : d.tokens ++ rest = d'.tokens ++ rest') :
    d = d' ∧ rest = rest' := by
  induction d generalizing rest rest' with
  | name text =>
    cases d' <;> simp only [tokens, List.cons_append, List.nil_append, List.cons.injEq,
      Token.name.injEq, reduceCtorEq, false_and] at h
    obtain ⟨rfl, rfl⟩ := h
    exact ⟨rfl, rfl⟩
  | not operand ih =>
    cases d' with
    | not operand' =>
      simp only [tokens, List.cons_append, List.cons.injEq, true_and] at h
      obtain ⟨rfl, rfl⟩ := ih trivial trivial h
      exact ⟨rfl, rfl⟩
    | _ => simp [tokens] at h
  | group content ih =>
    cases d' with
    | group content' =>
      simp only [tokens, List.cons_append, List.append_assoc, List.nil_append, List.cons.injEq,
        true_and] at h
      obtain ⟨rfl, hrest⟩ := ih (by simp [Ends]) (by simp [Ends]) h
      cases hrest
      exact ⟨rfl, rfl⟩
    | _ => simp [tokens] at h
  | factor last ih =>
    cases d' with
    | factor last' =>
      obtain ⟨rfl, rfl⟩ := ih trivial trivial h
      exact ⟨rfl, rfl⟩
    | and first' more' =>
      simp only [tokens, List.append_assoc, List.cons_append] at h
      obtain ⟨_, rfl⟩ := ih trivial trivial h
      exact absurd rfl hend
  | and first more ihfirst ihmore =>
    simp only [tokens, List.append_assoc, List.cons_append] at h
    cases d' with
    | factor last' =>
      obtain ⟨_, rfl⟩ := ihfirst trivial trivial h
      exact absurd rfl hend'
    | and first' more' =>
      simp only [tokens, List.append_assoc, List.cons_append] at h
      obtain ⟨rfl, hmore⟩ := ihfirst trivial trivial h
      obtain ⟨rfl, rfl⟩ := ihmore hend hend' (List.cons.inj hmore).2
      exact ⟨rfl, rfl⟩
  | term last ih =>
    cases d' with
    | term last' =>
      obtain ⟨rfl, rfl⟩ := ih hend.1 hend'.1 h
      exact ⟨rfl, rfl⟩
    | or first' more' =>
      simp only [tokens, List.append_assoc, List.cons_append] at h
      obtain ⟨_, rfl⟩ := ih hend.1 (by simp [Ends]) h
      exact absurd rfl hend.2
  | or first more ihfirst ihmore =>
    simp only [tokens, List.append_assoc, List.cons_append] at h
    cases d' with
    | term last' =>
      obtain ⟨_, rfl⟩ := ihfirst (by simp [Ends]) hend'.1 h
      exact absurd rfl hend'.2
    | or first' more' =>
      simp only [tokens, List.append_assoc, List.cons_append] at h
      obtain ⟨rfl, hmore⟩ := ihfirst (by simp [Ends]) (by simp [Ends]) h
      obtain ⟨rfl, rfl⟩ := ihmore hend hend' (List.cons.inj hmore).2
      exact ⟨rfl, rfl⟩

/-- A text has one derivation only. -/
theorem eq_of_tokens_eq {d d' : Derivation .condition} (h : d.tokens = d'.tokens) : d = d' := by
  have hend : ∀ c : Category, Ends c [] := fun c => by cases c <;> simp [Ends]
  have happend : d.tokens ++ [] = d'.tokens ++ [] := by rw [h]
  exact (eq_of_tokens_append (hend _) (hend _) happend).1

/-! ## The expression of a derivation -/

/-- A derivation, its expression and its operands have the same names. -/
theorem names_expression (d : Derivation c) :
    d.expression.names = d.names ∧ Expression.namesOf d.operands = d.names := by
  induction d <;>
    simp_all [expression, operands, names, Expression.names, Expression.namesOf]

/-- The chains of an expression are those of its derivation. -/
theorem branching_expression (d : Derivation c) :
    d.expression.Branching ∧ ∀ e ∈ d.operands, e.Branching := by
  have hlen : ∀ {c : Category} (e : Expression) (d : Derivation c),
      2 ≤ (e :: d.operands).length := by
    intro c e d
    have := List.length_pos_iff.mpr d.operands_ne_nil
    rw [List.length_cons]
    omega
  induction d with
  | name text => exact ⟨.feature text, by simpa [operands] using .feature text⟩
  | not operand ih => exact ⟨.not ih.1, by simpa [operands] using .not ih.1⟩
  | group content ih => exact ⟨ih.1, by simpa [operands] using ih.1⟩
  | factor last ih => exact ⟨ih.1, by simpa [operands] using ih.1⟩
  | and first more ihfirst ihmore =>
    have hall : ∀ e ∈ first.expression :: more.operands, e.Branching :=
      List.forall_mem_cons.mpr ⟨ihfirst.1, ihmore.2⟩
    exact ⟨.all (hlen _ more) hall, hall⟩
  | term last ih => exact ⟨ih.1, by simpa [operands] using ih.1⟩
  | or first more ihfirst ihmore =>
    have hall : ∀ e ∈ first.expression :: more.operands, e.Branching :=
      List.forall_mem_cons.mpr ⟨ihfirst.1, ihmore.2⟩
    exact ⟨.any (hlen _ more) hall, hall⟩

/-- What the operands of a chain say together. -/
def ChainHolds (supported : String → Bool) : {c : Category} → Derivation c → Prop
  | .factor, _ => True
  | .term, d => Expression.holdsAll supported d.operands = d.truth supported
  | .condition, d => Expression.holdsAny supported d.operands = d.truth supported

/-- An expression holds when its derivation is true. -/
theorem holds_expression (supported : String → Bool) (d : Derivation c) :
    d.expression.holds supported = d.truth supported ∧ d.ChainHolds supported := by
  induction d <;>
    simp_all [expression, operands, truth, ChainHolds, Expression.holds, Expression.holdsAll,
      Expression.holdsAny]

end Derivation

/-! ## Conditions -/

/-- A condition is read from exactly the tokens that the grammar derives. -/
theorem ofTokens_eq_ok_iff {ts : List Token} {e : Expression} :
    ofTokens ts = .ok e ↔ ∃ d : Derivation .condition,
      d.tokens = ts ∧ d.Fits nestingLimit ∧ d.expression = e := by
  have hreads : ofTokens ts = .ok e ↔
      Reads (readCondition (readFactor nestingLimit) ts) e [] := by
    cases ts with
    | nil =>
      constructor
      · intro h
        cases h
      · rintro ⟨h, _⟩
        cases h
    | cons t ts =>
      rw [ofTokens]
      · split
        · next hread => simp [Reads, hread]
        · next h hread => simp [Reads, hread]
        · next h hread => simp [Reads, hread]
        · next h _ hread => simp [Reads, hread]
      · simp
  rw [hreads, readCondition_eq, reads_map_iff]
  constructor
  · rintro ⟨es, rfl, hread⟩
    obtain ⟨d, hd, rfl⟩ :=
      Derivation.exists_of_readCondition (fun _ _ _ => Derivation.exists_of_readFactor) hread
    refine ⟨d, ?_, hd.fits, d.joined_any_operands.symm⟩
    rw [← hd.tokens_append, List.append_nil]
  · rintro ⟨d, rfl, hfits, rfl⟩
    refine ⟨d.operands, d.joined_any_operands, ?_⟩
    have hread : d.IsRead nestingLimit [] := d.read_tokens hfits (by simp [Derivation.Ends])
    rwa [Derivation.IsRead, List.append_nil] at hread

/-- A text is read as a condition exactly when its tokens are derived from the grammar,
with references as names and no factor inside more than 63 levels.  The derivation is
unique.  The expression has its chains and names, and holds when the derivation is true. -/
theorem parse_iff_derived (s : String) :
    (∀ ts, Token.Spells s.toList ts ↔ ts = Token.ofText s) ∧
    (∀ e, parse s = .ok e ↔ ∃ d : Derivation .condition, d.tokens = Token.ofText s ∧
      (∀ name ∈ d.names, Text.isReference name = true) ∧ d.nesting ≤ 63 ∧
      d.expression = e) ∧
    (∀ d d' : Derivation .condition, d.tokens = Token.ofText s → d'.tokens = Token.ofText s →
      d = d') ∧
    ∀ d : Derivation .condition, d.tokens = Token.ofText s →
      d.expression.Branching ∧
      d.expression.names = (Token.ofText s).filterMap Token.name? ∧
      ∀ supported, d.expression.holds supported = d.truth supported := by
  refine ⟨fun ts => Token.spells_iff, fun e => ?_, fun d d' hd hd' => ?_, fun d hd => ?_⟩
  · rw [parse, ofTokens_eq_ok_iff]
    constructor
    · rintro ⟨d, htokens, ⟨hnames, hnesting⟩, he⟩
      exact ⟨d, htokens, hnames, Nat.le_of_lt_succ hnesting, he⟩
    · rintro ⟨d, htokens, hnames, hnesting, he⟩
      exact ⟨d, htokens, ⟨hnames, Nat.lt_succ_of_le hnesting⟩, he⟩
  · exact Derivation.eq_of_tokens_eq (hd.trans hd'.symm)
  · refine ⟨d.branching_expression.1, ?_, fun supported => (d.holds_expression supported).1⟩
    rw [d.names_expression.1, d.names_eq, hd]

example : (parse? "a or b and not (c or x:d)").map Expression.render =
    some "(or a (and b (not (or c x:d))))" := by
  cbv

end Condition
end StatementForest
