/-!
# Data

A tree of records, lists and scalars: the common ground of the text formats in
which documents, grammars and configurations are written.  Members of a record
keep their order and may repeat.

A *plain* scalar is text whose type the format leaves open.  It is read as a
text, a number, a truth value or nothing, as the reader wants.
-/

namespace StatementForest

/-- What a tag in front of a value says about its type. -/
inductive Tag where
  /-- A type that is known everywhere, such as `null`, `bool` or `int`. -/
  | standard (name : String)
  /-- A type that only the reader of the value knows. -/
  | own (name : String)
  /-- A type that is described elsewhere. -/
  | foreign (address : String)
  deriving DecidableEq, Inhabited, Repr

/-- A value read from, or to be written to, a text format. -/
inductive Data where
  | null
  | bool (value : Bool)
  | integer (value : Int)
  /-- A number with a fraction or an exponent, as it was written. -/
  | decimal (literal : String)
  | text (value : String)
  /-- A scalar of an open type, as it was written. -/
  | plain (literal : String)
  | list (items : List Data)
  | record (members : List (String × Data))
  /-- A value with a tag in front of it. -/
  | tagged (tag : Tag) (value : Data)
  /-- A value that is well formed but that nobody can read, such as a text with half a
  character or a list that is nested too deep.  It does no harm where it is passed over. -/
  | unreadable
  deriving Inhabited

namespace Data

/-- A text, or null where there is none. -/
def ofOption? (value : Option String) : Data :=
  match value with
  | some s => .text s
  | none => .null

/-- A natural number. -/
def ofNat (n : Nat) : Data := .integer n

/-- A natural number, or null where there is none. -/
def ofNat? (value : Option Nat) : Data :=
  match value with
  | some n => .ofNat n
  | none => .null

/-- A list of texts. -/
def ofTexts (values : List String) : Data := .list (values.map .text)

/-- A value without its tag. -/
def untagged : Data → Data
  | .tagged _ value => value
  | value => value

/-- A list at a place where lists and records may be nested `depth` levels deep. -/
def listWithin (depth : Nat) (items : List Data) : Data :=
  if depth = 0 then .unreadable else .list items

/-- A record at a place where lists and records may be nested `depth` levels deep. -/
def recordWithin (depth : Nat) (members : List (String × Data)) : Data :=
  if depth = 0 then .unreadable else .record members

end Data

end StatementForest
