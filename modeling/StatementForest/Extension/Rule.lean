import StatementForest.Statement.Key

/-!
# Extension rules

An extension statement is not part of the core language.  A rule says what is
expected of one: its argument, how often it may occur below one parent, which
parents it may have, and what has to be looked at once its subtree is complete.
Extensions that nobody knows have no rule and may occur anywhere.

Current gaps:

- The form of an argument and the checks behind a subtree are closed lists.  They hold the one
  pattern and the three checks that the rules of the known suppliers use, not any pattern with
  any message, and not any operation on the build.
- A class of an extension is a rule or nothing.  Classes with operations of their own are left out.
-/

namespace StatementForest

/-- What the argument of an extension has to look like. -/
inductive ArgumentPolicy where
  /-- Not blank. -/
  | mandatory
  /-- An identifier. -/
  | identifier
  /-- No argument at all. -/
  | forbidden
  /-- Anything, or nothing. -/
  | optional
  deriving DecidableEq, Repr

/-- A fixed form that the argument of an extension must have when it is not blank.  The only form is
the one that some rule of the known suppliers asks for, with its own message. -/
inductive ArgumentForm where
  /-- Three numbers joined by dots. -/
  | version
  deriving DecidableEq, Repr

/-- What to do once the subtree of an extension is complete.  These are the checks of the known
suppliers, and a rule has no others. -/
inductive FollowUp where
  | nothing
  /-- Expect exactly one type. -/
  | expectType
  /-- Expect one annotated leaf for either side of a relationship. -/
  | expectSides
  /-- Keep the three numbers of a version with the statement. -/
  | recordVersion
  deriving DecidableEq, Repr

/-- What is expected of one extension statement.  All fields are free but the form and the check
behind the subtree, which are among the ones above. -/
structure ExtensionRule where
  key : Key
  argument : ArgumentPolicy := .optional
  /-- Whether a parent may have several of it. -/
  repeatable : Bool := false
  /-- The parents it may have; `none` allows any. -/
  parents : Option (List Key) := none
  /-- Whether it may also amend a statement from below `deviate` or `refine`. -/
  underAmendments : Bool := false
  /-- Whether its position among siblings of its key has a meaning. -/
  orderMatters : Bool := false
  form : Option ArgumentForm := none
  followUp : FollowUp := .nothing
  deriving DecidableEq, Repr

/-- Who looks after an extension statement. -/
inductive ExtensionClass where
  /-- Nobody knows the extension. -/
  | generic
  | ruled (rule : ExtensionRule)
  deriving DecidableEq, Repr

namespace ExtensionClass

/-- A short name of the class. -/
def tag : ExtensionClass → String
  | .generic => "extension"
  | .ruled rule => rule.key.render

/-- Whether the statement needs an argument. -/
def argumentIsMandatory : ExtensionClass → Bool
  | .generic => false
  | .ruled rule => rule.argument = .mandatory || rule.argument = .identifier

/-- Whether a parent may have several of the statement. -/
def isRepeatable : ExtensionClass → Bool
  | .generic => true
  | .ruled rule => rule.repeatable

/-- Whether the statement may stand below a parent of the given key. -/
def allowsParent (c : ExtensionClass) (parent : Key) : Bool :=
  match c with
  | .generic => true
  | .ruled rule =>
    match rule.parents with
    | some parents => decide (parent ∈ parents)
    | none => true

/-- Whether the position of the statement among siblings of its key has a meaning. -/
def orderMatters : ExtensionClass → Bool
  | .generic => false
  | .ruled rule => rule.orderMatters

end ExtensionClass

end StatementForest
