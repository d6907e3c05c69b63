import StatementForest.Condition.Expression
import StatementForest.Condition.Token
import StatementForest.Text.Identifier

/-!
# Reading feature conditions

The grammar, from the weakest operator to the strongest:

    condition = term, any number of: or term
    term      = factor, any number of: and factor
    factor    = not factor | ( condition ) | name

Factors may be nested in each other up to a fixed depth.  Every reader consumes
at least one token, which is why chains of operators end.

Current gaps:

- A name may stand inside of one level fewer than the limit says, as the name itself is counted as
  a level.
-/

namespace StatementForest
namespace Condition

/-- Why a text is no condition. -/
inductive SyntaxFault where
  | empty
  | unexpectedToken (token : String)
  | unexpectedEnd
  | unbalancedParentheses
  | invalidName (name : String)
  | tooDeep (limit : Nat)
  deriving DecidableEq, Repr

/-- The message of a syntax fault. -/
def SyntaxFault.message : SyntaxFault → String
  | .empty => "expression is empty"
  | .unexpectedToken token => "unexpected '" ++ token ++ "'"
  | .unexpectedEnd => "expression ends unexpectedly"
  | .unbalancedParentheses => "unbalanced parentheses"
  | .invalidName name => "'" ++ name ++ "' is not a valid feature name"
  | .tooDeep limit => "expression nests deeper than " ++ toString limit ++ " levels"

/-- How deep factors may be nested in each other. -/
def nestingLimit : Nat := 64

/-- The result of reading from the front of a token list: a value and the rest of
the tokens, of which there are fewer. -/
abbrev Read (α : Type) (ts : List Token) :=
  Except SyntaxFault (α × { rest : List Token // rest.length < ts.length })

/-- Read one or more items with a separator between each two. -/
def readChain {α : Type} (separator : Token) (item : (ts : List Token) → Read α ts)
    (ts : List Token) : Read (List α) ts :=
  match item ts with
  | .error fault => .error fault
  | .ok (x, ⟨[], h⟩) => .ok ([x], ⟨[], h⟩)
  | .ok (x, ⟨t :: rest, h⟩) =>
    if t = separator then
      have : rest.length < ts.length := Nat.lt_trans (by simp) h
      match readChain separator item rest with
      | .error fault => .error fault
      | .ok (xs, ⟨rest', h'⟩) => .ok (x :: xs, ⟨rest', by omega⟩)
    else .ok ([x], ⟨t :: rest, h⟩)
termination_by ts.length

/-- One operand stands for itself, and several are joined. -/
def joined (join : List Expression → Expression) : List Expression → Expression
  | [e] => e
  | es => join es

/-- Read a condition, given how its factors are read. -/
def readCondition (factor : (ts : List Token) → Read Expression ts) (ts : List Token) :
    Read Expression ts :=
  let term (ts : List Token) : Read Expression ts :=
    (readChain .and factor ts).map fun (es, rest) => (joined .all es, rest)
  (readChain .or term ts).map fun (es, rest) => (joined .any es, rest)

/-- Read a factor that holds factors up to `levels` deep, itself included. -/
def readFactor : (levels : Nat) → (ts : List Token) → Read Expression ts
  | 0, _ => .error (.tooDeep nestingLimit)
  | _ + 1, [] => .error .unexpectedEnd
  | levels + 1, .not :: ts =>
    match readFactor levels ts with
    | .error fault => .error fault
    | .ok (e, ⟨rest, h⟩) => .ok (.not e, ⟨rest, Nat.lt_succ_of_lt h⟩)
  | levels + 1, .opening :: ts =>
    match readCondition (readFactor levels) ts with
    | .error fault => .error fault
    | .ok (e, ⟨.closing :: rest, h⟩) =>
      .ok (e, ⟨rest, by simp only [List.length_cons] at h ⊢; omega⟩)
    | .ok (_, ⟨[], _⟩) => .error .unbalancedParentheses
    | .ok (_, ⟨t :: _, _⟩) => .error (.unexpectedToken t.render)
  | _ + 1, .name name :: ts =>
    if Text.isReference name then .ok (.feature name, ⟨ts, by simp⟩)
    else .error (.invalidName name)
  | _ + 1, .closing :: _ => .error .unbalancedParentheses
  | _ + 1, t :: _ => .error (.unexpectedToken t.render)

/-- Read a condition that takes up all tokens. -/
def ofTokens : List Token → Except SyntaxFault Expression
  | [] => .error .empty
  | ts =>
    match readCondition (readFactor nestingLimit) ts with
    | .error fault => .error fault
    | .ok (e, ⟨[], _⟩) => .ok e
    | .ok (_, ⟨.closing :: _, _⟩) => .error .unbalancedParentheses
    | .ok (_, ⟨t :: _, _⟩) => .error (.unexpectedToken t.render)

/-- Read a condition. -/
def parse (s : String) : Except SyntaxFault Expression := ofTokens (Token.ofText s)

/-- The condition of a text, unless the text is malformed. -/
def parse? (s : String) : Option Expression := (parse s).toOption

end Condition
end StatementForest
