import StatementForest.Proofs.Condition.ParserCorrectness

/-!
# How deep factors are nested

Behind some tokens of a text some levels are open: a parenthesis until it is closed, and a `not`
until its factor ends.  A reader of factors counts the levels that are left, and the factor that it
is about to read counts as one of them.  So a name is read inside of 63 levels at most, and a
condition with a name inside of 64 levels is rejected as too deep.

Main results:

- Theorem `Condition.Derivation.foldl_tokens`: no level of a derivation stays open behind it.
- Theorem `Condition.Derivation.forall_nameLevels_iff`: how deep a derivation is nested, from its
  tokens.
- Theorem `Condition.Derivation.overflows`: what is nested too deep is rejected for this reason.
- Theorem `Condition.reaches_of_readFactor`: nothing else is, by induction on the levels that are
  left.
- Theorem `Condition.parse_by_nesting`: which conditions are rejected as too deep.
- Theorem `Condition.fullyNested_rejected`: one of them is nested no deeper than the limit.

Current gaps:

- Only the nesting of factors is limited.  Conditions may have any number of terms and of factors
  side by side.
-/

namespace StatementForest
namespace Condition

/-! ## Open levels -/

/-- A level that encloses the tokens that follow. -/
inductive Level where
  | group
  | negation
  deriving DecidableEq

namespace Level

/-- The levels that are open when a factor ends.  The negations of the factor end with it. -/
def afterFactor (levels : List Level) : List Level := levels.dropWhile (· = .negation)

/-- The open levels behind one more token, the innermost one first. -/
def behind (levels : List Level) : Token → List Level
  | .opening => .group :: levels
  | .closing => afterFactor (afterFactor levels).tail
  | .not => .negation :: levels
  | .name _ => afterFactor levels
  | .and | .or => levels

/-- The number of levels around each name, from left to right. -/
def nameLevels (levels : List Level) : List Token → List Nat
  | [] => []
  | .name text :: ts => levels.length :: nameLevels (behind levels (.name text)) ts
  | t :: ts => nameLevels (behind levels t) ts

variable {levels : List Level} {ts us : List Token}

/-- A factor has ended when nothing but negations could end with it. -/
theorem afterFactor_afterFactor : afterFactor (afterFactor levels) = afterFactor levels := by
  induction levels with
  | nil => rfl
  | cons level levels ih =>
    cases level with
    | group => rfl
    | negation => exact ih

/-- The levels around names in two rows of tokens are found one row after the other. -/
theorem nameLevels_append :
    nameLevels levels (ts ++ us) =
      nameLevels levels ts ++ nameLevels (ts.foldl behind levels) us := by
  induction ts generalizing levels with
  | nil => rfl
  | cons t ts ih => cases t <;> simp [nameLevels, ih]

/-- The names inside of some number of levels stand where as many levels are open. -/
theorem mem_nameLevels_iff {count : Nat} : count ∈ nameLevels levels ts ↔
    ∃ before name after, ts = before ++ .name name :: after ∧
      (before.foldl behind levels).length = count := by
  induction ts generalizing levels with
  | nil => simp [nameLevels]
  | cons t ts ih =>
    constructor
    · intro h
      have hrest : count ∈ nameLevels (behind levels t) ts →
          ∃ before name after, t :: ts = before ++ .name name :: after ∧
            (before.foldl behind levels).length = count := by
        rintro hmem
        obtain ⟨before, name, after, rfl, hcount⟩ := ih.mp hmem
        exact ⟨t :: before, name, after, rfl, hcount⟩
      cases t with
      | name text =>
        obtain rfl | hmem := List.mem_cons.mp h
        · exact ⟨[], text, ts, rfl, rfl⟩
        · exact hrest hmem
      | _ => exact hrest h
    · rintro ⟨before, name, after, heq, rfl⟩
      cases before with
      | nil =>
        cases heq
        exact List.mem_cons_self
      | cons u before =>
        cases heq
        have hmem : (before.foldl behind (behind levels t)).length ∈
            nameLevels (behind levels t) (before ++ .name name :: after) :=
          ih.mpr ⟨before, name, after, rfl, rfl⟩
        cases t with
        | name text => exact List.mem_cons_of_mem _ hmem
        | _ => exact hmem

end Level

/-- The levels that are open behind some tokens. -/
def openLevels (ts : List Token) : List Level := ts.foldl Level.behind []

/-- A name among some tokens stands inside of a number of levels. -/
def HasNameInside (ts : List Token) (count : Nat) : Prop :=
  ∃ before name after, ts = before ++ .name name :: after ∧ (openLevels before).length = count

open Level

namespace Derivation

variable {c : Category} {levels : List Level}

/-- Behind a derivation nothing is open that has been opened in it, and the negations in front of
it have ended. -/
theorem foldl_tokens (d : Derivation c) (levels : List Level) :
    d.tokens.foldl behind levels = afterFactor levels := by
  induction d generalizing levels with
  | name text => rfl
  | not operand ih => exact ih (.negation :: levels)
  | group inner ih =>
    rw [tokens, List.foldl_cons, List.foldl_append, ih]
    rfl
  | factor last ih => exact ih levels
  | and first rest ihfirst ihrest =>
    rw [tokens, List.foldl_append, List.foldl_cons, ihfirst, behind, ihrest,
      afterFactor_afterFactor]
  | term last ih => exact ih levels
  | or first rest ihfirst ihrest =>
    rw [tokens, List.foldl_append, List.foldl_cons, ihfirst, behind, ihrest,
      afterFactor_afterFactor]

/-- A derivation has at least one token. -/
theorem tokens_ne_nil (d : Derivation c) : d.tokens ≠ [] := by
  induction d <;> simp_all [tokens]

/-- A factor may follow negations.  A chain stands at the start of a text or of parentheses. -/
def Starts : Category → List Level → Prop
  | .factor, _ => True
  | _, levels => afterFactor levels = levels

/-- A derivation is nested as deep as the name in it that is inside of most levels. -/
theorem forall_nameLevels_iff (d : Derivation c) (hstarts : Starts c levels) (n : Nat) :
    (∀ count ∈ nameLevels levels d.tokens, count ≤ n) ↔ levels.length + d.nesting ≤ n := by
  induction d generalizing levels with
  | name text => simp [tokens, nameLevels, nesting]
  | not operand ih =>
    have hoperand := @ih (.negation :: levels) trivial
    rw [List.length_cons] at hoperand
    rw [tokens, nesting, ← Nat.add_assoc, Nat.add_right_comm]
    exact hoperand
  | group content ih =>
    have hcontent := @ih (.group :: levels) rfl
    rw [List.length_cons] at hcontent
    rw [tokens, nesting, ← Nat.add_assoc, Nat.add_right_comm, ← hcontent]
    simp [nameLevels, nameLevels_append, behind]
  | factor last ih => exact ih trivial
  | and first more ihfirst ihmore =>
    have hfirst := @ihfirst levels trivial
    have hmore := ihmore hstarts
    rw [tokens, nesting, nameLevels_append, foldl_tokens, hstarts, List.forall_mem_append, hfirst]
    change _ ∧ (∀ count ∈ nameLevels levels more.tokens, count ≤ n) ↔ _
    rw [hmore]
    omega
  | term last ih => exact ih hstarts
  | or first more ihfirst ihmore =>
    have hfirst := ihfirst hstarts
    have hmore := ihmore hstarts
    rw [tokens, nesting, nameLevels_append, foldl_tokens, hstarts, List.forall_mem_append, hfirst]
    change _ ∧ (∀ count ∈ nameLevels levels more.tokens, count ≤ n) ↔ _
    rw [hmore]
    omega

/-- How deep a condition is nested, from the names in its tokens. -/
theorem nesting_le_iff (d : Derivation .condition) (n : Nat) :
    d.nesting ≤ n ↔ ∀ count, HasNameInside d.tokens count → count ≤ n := by
  have h := @forall_nameLevels_iff _ [] d rfl n
  rw [List.length_nil, Nat.zero_add] at h
  rw [← h]
  simp only [HasNameInside, openLevels, mem_nameLevels_iff]

end Derivation

/-! ## What is nested too deep is rejected -/

section Chain

variable {α : Type} {separator : Token} {item : (ts : List Token) → Read α ts} {ts : List Token}
  {fault : SyntaxFault}

/-- A chain whose first item fails fails in the same way. -/
theorem readChain_of_error (h : item ts = .error fault) :
    readChain separator item ts = .error fault := by
  rw [readChain, h]

/-- A chain whose rest fails fails in the same way. -/
theorem readChain_of_more_error {x : α} {mid : List Token}
    (h : Reads (item ts) x (separator :: mid))
    (hmore : readChain separator item mid = .error fault) :
    readChain separator item ts = .error fault := by
  obtain ⟨hlt, heq⟩ := h
  rw [readChain, heq]
  simp only [if_true]
  rw [hmore]

/-- A chain is rejected for its first item, or for what follows it. -/
theorem readChain_error_cases (h : readChain separator item ts = .error fault) :
    item ts = .error fault ∨
      ∃ x mid, Reads (item ts) x (separator :: mid) ∧
        readChain separator item mid = .error fault := by
  rw [readChain] at h
  split at h
  · next hitem =>
    cases h
    exact .inl hitem
  · cases h
  · next x t mid h' hitem =>
    split at h
    · next hsep =>
      subst hsep
      split at h
      · next hmid =>
        cases h
        exact .inr ⟨x, mid, ⟨h', hitem⟩, hmid⟩
      · cases h
    · cases h

/-- Joining the operands of a chain does not change why it is rejected. -/
theorem map_eq_error_iff {β : Type} {result : Except SyntaxFault α} {f : α → β} :
    result.map f = .error fault ↔ result = .error fault := by
  cases result <;> simp [Except.map]

/-- A term fails as its chain of factors does. -/
theorem readTerm_eq_error_iff {factor : (ts : List Token) → Read Expression ts} :
    readTerm factor ts = .error fault ↔ readChain .and factor ts = .error fault :=
  map_eq_error_iff

/-- A condition fails as its chain of terms does. -/
theorem readCondition_eq_error_iff {factor : (ts : List Token) → Read Expression ts} :
    readCondition factor ts = .error fault ↔
      readChain .or (readTerm factor) ts = .error fault :=
  map_eq_error_iff

end Chain

namespace Derivation

variable {c : Category}

/-- What a reader of a category makes of a derivation that is nested too deep. -/
def IsRejected (levels : Nat) : {c : Category} → Derivation c → List Token → Prop
  | .factor, d, rest => readFactor levels (d.tokens ++ rest) = .error (.tooDeep nestingLimit)
  | .term, d, rest =>
    readChain .and (readFactor levels) (d.tokens ++ rest) = .error (.tooDeep nestingLimit)
  | .condition, d, rest =>
    readChain .or (readTerm (readFactor levels)) (d.tokens ++ rest) =
      .error (.tooDeep nestingLimit)

/-- What is nested too deep is rejected, by induction on the derivation.  In a chain, the operands
in front of the first one that is too deep are read. -/
theorem overflows (d : Derivation c) {levels : Nat} (rest : List Token)
    (hnames : ∀ name ∈ d.names, Text.isReference name = true) (hnesting : levels ≤ d.nesting) :
    d.IsRejected levels rest := by
  induction d generalizing levels rest with
  | name text =>
    obtain rfl := Nat.le_zero.mp hnesting
    rfl
  | not operand ih =>
    cases levels with
    | zero => rfl
    | succ levels =>
      have hoperand : readFactor levels (operand.tokens ++ rest) = .error (.tooDeep nestingLimit) :=
        ih rest hnames (Nat.le_of_succ_le_succ hnesting)
      change readFactor (levels + 1) (.not :: (operand.tokens ++ rest)) = _
      simp only [readFactor, hoperand]
      rfl
  | group content ih =>
    cases levels with
    | zero => rfl
    | succ levels =>
      have hcontent : readCondition (readFactor levels) (content.tokens ++ .closing :: rest) =
          .error (.tooDeep nestingLimit) :=
        readCondition_eq_error_iff.mpr
          (ih (.closing :: rest) hnames (Nat.le_of_succ_le_succ hnesting))
      have htokens : (group content).tokens ++ rest =
          .opening :: (content.tokens ++ .closing :: rest) := by simp [tokens]
      change readFactor (levels + 1) ((group content).tokens ++ rest) = _
      rw [htokens, readFactor, hcontent]
  | factor last ih => exact readChain_of_error (ih rest hnames hnesting)
  | and first more ihfirst ihmore =>
    simp only [names, List.forall_mem_append] at hnames
    have htokens : (and first more).tokens ++ rest =
        first.tokens ++ .and :: (more.tokens ++ rest) := by simp [tokens]
    change readChain .and (readFactor levels) ((and first more).tokens ++ rest) = _
    rw [htokens]
    by_cases hfirst : levels ≤ first.nesting
    · exact readChain_of_error (ihfirst _ hnames.1 hfirst)
    · have hread : first.IsRead levels (.and :: (more.tokens ++ rest)) :=
        first.read_tokens ⟨hnames.1, Nat.lt_of_not_le hfirst⟩ trivial
      rw [nesting] at hnesting
      exact readChain_of_more_error hread (ihmore rest hnames.2 (by omega))
  | term last ih => exact readChain_of_error (readTerm_eq_error_iff.mpr (ih rest hnames hnesting))
  | or first more ihfirst ihmore =>
    simp only [names, List.forall_mem_append] at hnames
    have htokens : (or first more).tokens ++ rest =
        first.tokens ++ .or :: (more.tokens ++ rest) := by simp [tokens]
    change readChain .or (readTerm (readFactor levels)) ((or first more).tokens ++ rest) = _
    rw [htokens]
    by_cases hfirst : levels ≤ first.nesting
    · exact readChain_of_error (readTerm_eq_error_iff.mpr (ihfirst _ hnames.1 hfirst))
    · have hread : first.IsRead levels (.or :: (more.tokens ++ rest)) :=
        first.read_tokens ⟨hnames.1, Nat.lt_of_not_le hfirst⟩ (by simp [Ends])
      rw [nesting] at hnesting
      have hterm : Reads (readTerm (readFactor levels)
          (first.tokens ++ .or :: (more.tokens ++ rest))) first.expression
          (.or :: (more.tokens ++ rest)) := by
        rw [readTerm, reads_map_iff]
        exact ⟨first.operands, first.joined_all_operands, hread⟩
      exact readChain_of_more_error hterm (ihmore rest hnames.2 (by omega))

end Derivation

/-! ## Nothing else is rejected for its depth -/

/-- At some place of the tokens a number of levels is open, besides those that enclose them all. -/
def Reaches (count : Nat) (levels : List Level) (ts : List Token) : Prop :=
  ∃ before after, ts = before ++ after ∧
    (before.foldl behind levels).length = levels.length + count

section Reaching

variable {levels : List Level} {count limit : Nat} {ts : List Token}

/-- What is reached behind some tokens that leave the levels as they were. -/
theorem Reaches.append {before : List Token} (hbefore : before.foldl behind levels = levels)
    (h : Reaches count levels ts) : Reaches count levels (before ++ ts) := by
  obtain ⟨inner, after, rfl, hcount⟩ := h
  refine ⟨before ++ inner, after, (List.append_assoc _ _ _).symm, ?_⟩
  rw [List.foldl_append, hbefore, hcount]

/-- What is reached inside of one more level. -/
theorem Reaches.inside {level : Level} {t : Token} (ht : behind levels t = level :: levels)
    (h : Reaches count (level :: levels) ts) : Reaches (count + 1) levels (t :: ts) := by
  obtain ⟨before, after, rfl, hcount⟩ := h
  refine ⟨t :: before, after, rfl, ?_⟩
  rw [List.foldl_cons, ht, hcount, List.length_cons]
  omega

/-- A chain is as deep as one of its items, by induction on its tokens.  The items that are read
leave the levels as they were. -/
theorem reaches_of_readChain {α : Type} {separator : Token} {item : (ts : List Token) → Read α ts}
    (hitem : ∀ ts, item ts = .error (.tooDeep limit) →
      limit = nestingLimit ∧ Reaches count levels ts)
    (hread : ∀ ts x rest, Reads (item ts) x rest →
      ∃ before, before ++ rest = ts ∧ before.foldl behind levels = levels)
    (hseparator : behind levels separator = levels)
    (h : readChain separator item ts = .error (.tooDeep limit)) :
    limit = nestingLimit ∧ Reaches count levels ts := by
  induction hlen : ts.length using Nat.strongRecOn generalizing ts with
  | _ n ih =>
    obtain hfirst | ⟨x, mid, hfirst, hmore⟩ := readChain_error_cases h
    · exact hitem ts hfirst
    · have hshort : mid.length < n := by
        obtain ⟨hlt, _⟩ := hfirst
        rw [List.length_cons] at hlt
        omega
      obtain ⟨before, rfl, hbefore⟩ := hread ts x _ hfirst
      obtain ⟨hlimit, hmid⟩ := ih mid.length hshort hmore rfl
      have hmore : Reaches count levels ([separator] ++ mid) := Reaches.append hseparator hmid
      exact ⟨hlimit, Reaches.append hbefore hmore⟩

/-- What is read as a factor leaves the levels of a chain as they were. -/
theorem exists_before_of_readFactor (hsettled : afterFactor levels = levels) {e : Expression}
    {rest : List Token} (h : Reads (readFactor count ts) e rest) :
    ∃ before, before ++ rest = ts ∧ before.foldl behind levels = levels := by
  obtain ⟨d, hd, _⟩ := Derivation.exists_of_readFactor h
  exact ⟨d.tokens, hd.tokens_append, (d.foldl_tokens levels).trans hsettled⟩

/-- What is read as a term leaves the levels of a chain as they were. -/
theorem exists_before_of_readTerm (hsettled : afterFactor levels = levels) {e : Expression}
    {rest : List Token} (h : Reads (readTerm (readFactor count) ts) e rest) :
    ∃ before, before ++ rest = ts ∧ before.foldl behind levels = levels := by
  obtain ⟨es, _, hread⟩ := reads_map_iff.mp h
  obtain ⟨d, hd, _⟩ :=
    Derivation.exists_of_readTerm (fun _ _ _ => Derivation.exists_of_readFactor) hread
  exact ⟨d.tokens, hd.tokens_append, (d.foldl_tokens levels).trans hsettled⟩

/-- A condition is as deep as one of its factors. -/
theorem reaches_of_readCondition (hsettled : afterFactor levels = levels)
    (hfactor : ∀ ts, readFactor count ts = .error (.tooDeep limit) →
      limit = nestingLimit ∧ Reaches count levels ts)
    (h : readCondition (readFactor count) ts = .error (.tooDeep limit)) :
    limit = nestingLimit ∧ Reaches count levels ts := by
  have hterm : ∀ ts, readTerm (readFactor count) ts = .error (.tooDeep limit) →
      limit = nestingLimit ∧ Reaches count levels ts := fun ts h =>
    reaches_of_readChain hfactor (fun _ _ _ => exists_before_of_readFactor hsettled) rfl
      (readTerm_eq_error_iff.mp h)
  exact reaches_of_readChain hterm (fun _ _ _ => exists_before_of_readTerm hsettled) rfl
    (readCondition_eq_error_iff.mp h)

/-- A factor that is rejected for its depth uses up the levels that are left, by induction on
them. -/
theorem reaches_of_readFactor (h : readFactor count ts = .error (.tooDeep limit)) :
    limit = nestingLimit ∧ Reaches count levels ts := by
  induction count generalizing ts levels with
  | zero =>
    cases h
    exact ⟨rfl, [], ts, rfl, rfl⟩
  | succ count ih =>
    cases ts with
    | nil => cases h
    | cons t ts =>
      cases t with
      | not =>
        rw [readFactor] at h
        split at h
        · next hread =>
          cases h
          obtain ⟨hlimit, hreaches⟩ := ih hread
          exact ⟨hlimit, hreaches.inside rfl⟩
        · cases h
      | opening =>
        rw [readFactor] at h
        split at h
        · next hread =>
          cases h
          have hcontent : limit = nestingLimit ∧ Reaches count (.group :: levels) ts :=
            reaches_of_readCondition rfl (fun _ => ih) hread
          exact ⟨hcontent.1, hcontent.2.inside rfl⟩
        all_goals cases h
      | name name =>
        rw [readFactor] at h
        split at h <;> cases h
      | _ => cases h

end Reaching

/-! ## Conditions -/

/-- A condition that is rejected for its depth opens as many levels as the limit says. -/
theorem reaches_of_ofTokens {ts : List Token} {limit : Nat}
    (h : ofTokens ts = .error (.tooDeep limit)) :
    limit = nestingLimit ∧ Reaches nestingLimit [] ts := by
  unfold ofTokens at h
  split at h
  · cases h
  · split at h
    · next hread =>
      cases h
      exact reaches_of_readCondition rfl (fun _ => reaches_of_readFactor) hread
    all_goals cases h

/-- A condition that is nested too deep is rejected for this. -/
theorem Derivation.ofTokens_overflows (d : Derivation .condition)
    (hnames : ∀ name ∈ d.names, Text.isReference name = true)
    (hnesting : nestingLimit ≤ d.nesting) :
    ofTokens d.tokens = .error (.tooDeep nestingLimit) := by
  have hread : readCondition (readFactor nestingLimit) (d.tokens ++ []) =
      .error (.tooDeep nestingLimit) :=
    readCondition_eq_error_iff.mpr (d.overflows [] hnames hnesting)
  obtain ⟨t, ts, htokens⟩ := List.exists_cons_of_ne_nil d.tokens_ne_nil
  rw [List.append_nil, htokens] at hread
  rw [htokens, ofTokens, hread]
  simp

/-- A condition that is derived with references as names is read exactly when no name stands
inside of more than 63 levels, and rejected as too deep exactly when one does.  Whatever else is
rejected as too deep has 64 open levels, which is the limit that is named. -/
theorem parse_by_nesting (s : String) :
    (∀ d : Derivation .condition, d.tokens = Token.ofText s →
      (∀ name ∈ d.names, Text.isReference name = true) →
      (parse s = .ok d.expression ↔
        ∀ count, HasNameInside (Token.ofText s) count → count ≤ 63) ∧
      (parse s = .error (.tooDeep 64) ↔
        ∃ count, HasNameInside (Token.ofText s) count ∧ 64 ≤ count)) ∧
    ∀ limit, parse s = .error (.tooDeep limit) →
      limit = 64 ∧ ∃ before after, Token.ofText s = before ++ after ∧
        (openLevels before).length = 64 := by
  refine ⟨fun d htokens hnames => ?_, fun limit h => ?_⟩
  · have hread : d.nesting ≤ 63 → parse s = .ok d.expression := fun hnesting =>
      ofTokens_eq_ok_iff.mpr ⟨d, htokens, ⟨hnames, Nat.lt_succ_of_le hnesting⟩, rfl⟩
    have hdeep : ¬d.nesting ≤ 63 → parse s = .error (.tooDeep 64) := by
      intro hnesting
      rw [parse, ← htokens]
      exact d.ofTokens_overflows hnames (Nat.lt_of_not_le hnesting)
    have hcounts : (∃ count, HasNameInside (Token.ofText s) count ∧ 64 ≤ count) ↔
        ¬∀ count, HasNameInside (Token.ofText s) count → count ≤ 63 := by
      simp only [Classical.not_forall, Nat.not_le, exists_prop]
      rfl
    rw [hcounts, ← htokens, ← d.nesting_le_iff]
    by_cases hnesting : d.nesting ≤ 63
    · simp [hread hnesting, hnesting]
    · simp [hdeep hnesting, hnesting]
  · obtain ⟨rfl, before, after, hts, hcount⟩ := reaches_of_ofTokens h
    refine ⟨rfl, before, after, hts, ?_⟩
    rw [openLevels, hcount]
    rfl

/-! ### The text at the limit -/

/-- A name in some number of parentheses. -/
def nested : Nat → Derivation .condition
  | 0 => .term (.factor (.name "a"))
  | count + 1 => .term (.factor (.group (nested count)))

/-- A name in as many parentheses as the limit says. -/
def fullyNested : String :=
  String.ofList (List.replicate 64 '(' ++ 'a' :: List.replicate 64 ')')

/-- No name and no token of the text stands inside of more than 64 levels, but its parentheses are
those of the grammar and it is rejected for its depth. -/
theorem fullyNested_rejected :
    (nested 64).tokens = Token.ofText fullyNested ∧
    (∀ name ∈ (nested 64).names, Text.isReference name = true) ∧
    (∀ count, HasNameInside (Token.ofText fullyNested) count → count ≤ 64) ∧
    (∀ before after, Token.ofText fullyNested = before ++ after →
      (openLevels before).length ≤ 64) ∧
    parse fullyNested = .error (.tooDeep 64) := by
  have htokens : (nested 64).tokens = Token.ofText fullyNested := by decide +kernel
  have hnames : ∀ name ∈ (nested 64).names, Text.isReference name = true := by decide +kernel
  have hlen : (nested 64).tokens.length = 129 := by decide +kernel
  have hopen : ∀ n < 130, (openLevels ((nested 64).tokens.take n)).length ≤ 64 := by
    decide +kernel
  refine ⟨htokens, hnames, ?_, ?_, ?_⟩
  · rw [← htokens, ← Derivation.nesting_le_iff]
    decide
  · intro before after h
    rw [← htokens] at h
    have hbefore : (nested 64).tokens.take before.length = before := by
      rw [h, List.take_left]
    have hshort : before.length < 130 := by
      rw [h, List.length_append] at hlen
      omega
    rw [← hbefore]
    exact hopen before.length hshort
  · rw [parse, ← htokens]
    exact (nested 64).ofTokens_overflows hnames (by decide)

end Condition
end StatementForest
