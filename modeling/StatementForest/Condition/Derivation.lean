import StatementForest.Condition.Expression
import StatementForest.Condition.Token
import StatementForest.Text.Identifier

/-!
# Derivations of feature conditions

The grammar of conditions as a type of derivations, next to the rule that cuts a
text into tokens.  A chain of `or` consists of terms and a chain of `and` of
factors, so the operators bind as strongly as their place in the grammar says.

Main results:

- `Derivation.operands_ne_nil`: a chain has at least one operand.
- `Derivation.names_eq`: the names of a derivation are its name tokens.
-/

namespace StatementForest
namespace Condition

/-! ### Words and tokens -/

/-- The characters of words: neither blank nor a parenthesis. -/
def Token.isWordChar (c : Char) : Bool := c != '(' && c != ')' && !Text.isBlank c

/-- How a text consists of tokens: parentheses, and words that go on for as long as
there are characters of words.  Blank characters are between tokens. -/
inductive Token.Spells : List Char → List Token → Prop where
  | nil : Spells [] []
  | blank {c : Char} {cs : List Char} {ts : List Token} (hc : Text.isBlank c = true)
      (h : Spells cs ts) : Spells (c :: cs) ts
  | opening {cs : List Char} {ts : List Token} (h : Spells cs ts) :
      Spells ('(' :: cs) (.opening :: ts)
  | closing {cs : List Char} {ts : List Token} (h : Spells cs ts) :
      Spells (')' :: cs) (.closing :: ts)
  | word {word cs : List Char} {ts : List Token} (hne : word ≠ [])
      (hword : ∀ c ∈ word, isWordChar c = true)
      (hend : ∀ c, cs.head? = some c → isWordChar c = false) (h : Spells cs ts) :
      Spells (word ++ cs) (.ofWord word :: ts)

/-- The name that a token is. -/
def Token.name? : Token → Option String
  | .name text => some text
  | _ => none

/-! ### Derivations -/

/-- What the grammar has rules for. -/
inductive Category where
  | condition
  | term
  | factor

/-- The derivations of each category.  Chains are derived from their first operand on. -/
inductive Derivation : Category → Type where
  | name (text : String) : Derivation .factor
  | not (operand : Derivation .factor) : Derivation .factor
  | group (inner : Derivation .condition) : Derivation .factor
  | factor (last : Derivation .factor) : Derivation .term
  | and (first : Derivation .factor) (rest : Derivation .term) : Derivation .term
  | term (last : Derivation .term) : Derivation .condition
  | or (first : Derivation .term) (rest : Derivation .condition) : Derivation .condition

namespace Derivation

variable {c : Category}

/-- The tokens that are derived. -/
def tokens : {c : Category} → Derivation c → List Token
  | _, .name text => [.name text]
  | _, .not operand => .not :: operand.tokens
  | _, .group inner => .opening :: (inner.tokens ++ [.closing])
  | _, .factor last => last.tokens
  | _, .and first rest => first.tokens ++ .and :: rest.tokens
  | _, .term last => last.tokens
  | _, .or first rest => first.tokens ++ .or :: rest.tokens

/-- The names in a derivation, from left to right. -/
def names : {c : Category} → Derivation c → List String
  | _, .name text => [text]
  | _, .not operand => operand.names
  | _, .group inner => inner.names
  | _, .factor last => last.names
  | _, .and first rest => first.names ++ rest.names
  | _, .term last => last.names
  | _, .or first rest => first.names ++ rest.names

/-- The greatest number of `not` and of parentheses that enclose one factor. -/
def nesting : {c : Category} → Derivation c → Nat
  | _, .name _ => 0
  | _, .not operand => operand.nesting + 1
  | _, .group inner => inner.nesting + 1
  | _, .factor last => last.nesting
  | _, .and first rest => max first.nesting rest.nesting
  | _, .term last => last.nesting
  | _, .or first rest => max first.nesting rest.nesting

/-- The truth value of what is derived, when `supported` decides on the names. -/
def truth (supported : String → Bool) : {c : Category} → Derivation c → Bool
  | _, .name text => supported text
  | _, .not operand => !operand.truth supported
  | _, .group inner => inner.truth supported
  | _, .factor last => last.truth supported
  | _, .and first rest => first.truth supported && rest.truth supported
  | _, .term last => last.truth supported
  | _, .or first rest => first.truth supported || rest.truth supported

mutual

/-- The expression of a derivation.  A chain of several operands is one node. -/
def expression : {c : Category} → Derivation c → Expression
  | _, .name text => .feature text
  | _, .not operand => .not operand.expression
  | _, .group inner => inner.expression
  | _, .factor last => last.expression
  | _, .and first rest => .all (first.expression :: rest.operands)
  | _, .term last => last.expression
  | _, .or first rest => .any (first.expression :: rest.operands)

/-- The expressions of the operands of a chain; a factor is its own operand. -/
def operands : {c : Category} → Derivation c → List Expression
  | _, .name text => [.feature text]
  | _, .not operand => [.not operand.expression]
  | _, .group inner => [inner.expression]
  | _, .factor last => [last.expression]
  | _, .and first rest => first.expression :: rest.operands
  | _, .term last => [last.expression]
  | _, .or first rest => first.expression :: rest.operands

end

/-- A chain has at least one operand. -/
theorem operands_ne_nil (d : Derivation c) : d.operands ≠ [] := by
  cases d <;> simp [operands]

/-- The names of a derivation are those among its tokens. -/
theorem names_eq (d : Derivation c) : d.names = d.tokens.filterMap Token.name? := by
  induction d <;> simp_all [names, tokens, Token.name?, List.filterMap_cons]

end Derivation

/-- Every chain in an expression has at least two operands. -/
inductive Expression.Branching : Expression → Prop where
  | feature (name : String) : Branching (.feature name)
  | not {operand : Expression} (h : Branching operand) : Branching (.not operand)
  | all {operands : List Expression} (hlen : 2 ≤ operands.length)
      (h : ∀ e ∈ operands, Branching e) : Branching (.all operands)
  | any {operands : List Expression} (hlen : 2 ≤ operands.length)
      (h : ∀ e ∈ operands, Branching e) : Branching (.any operands)

end Condition
end StatementForest
