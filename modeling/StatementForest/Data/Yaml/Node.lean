import StatementForest.Data.Read
import StatementForest.Data.Yaml.Token

/-!
# YAML documents

A document is a value in which some places only refer to the value of an anchor.  What
a reader does not look at is never followed, so a value may well refer to itself.

A plain scalar keeps its spelling, so whoever reads the value decides on its type.
Tags of lists and records tell a reader nothing, and only those of scalars are kept.

Main results:

- `Yaml.asText?_scalarData`: whatever its tag and style, a scalar is read as the text that it has.
-/

namespace StatementForest
namespace Yaml

/-! ### Tags and scalars -/

/-- The handle of the tags that are known everywhere. -/
def standardHandle : String := "!!"

/-- What the addresses of the tags that are known everywhere begin with. -/
def standardAddress : String := "tag:yaml.org,2002:"

/-- The tag with an address. -/
def tagOf (address : String) : Tag :=
  match address.toList with
  | ['!'] => .own "!"
  | '!' :: name => .own (String.ofList name)
  | cs =>
    if standardAddress.toList.isPrefixOf cs then
      .standard (String.ofList (cs.drop standardAddress.length))
    else .foreign address

/-- The tag with a handle, by the meanings that directives give to handles.  The handle
must have a meaning. -/
def tag? (meanings : List (String × String)) (handle suffix : String) : Option Tag :=
  if handle.isEmpty then some (tagOf suffix)
  else
    match meanings.lookup handle with
    | some meaning => some (tagOf (meaning ++ suffix))
    | none =>
      if handle = "!" then some (tagOf ("!" ++ suffix))
      else if handle = standardHandle then some (.standard suffix)
      else none

/-- Whether a tag lets a block scalar be read like a plain one: as a number, which has
digits, or as a truth value, which has none. -/
def opensType (tag : Tag) (s : String) : Bool :=
  let hasDigit := s.toList.any Char.isDigit
  match tag with
  | .standard "int" => hasDigit
  | .standard "bool" => !s.isEmpty && !hasDigit
  | _ => false

/-- A scalar as data. -/
def scalarData (tag : Option Tag) (style : Style) (s : String) : Data :=
  let value := if style = .plain then Data.plain s else .text s
  match tag with
  | none => value
  | some tag =>
    .tagged tag (if style = .literal && opensType tag s then .plain s else value)

/-- A reader that wants a text gets the spelling of a scalar, whatever its tag and style. -/
theorem asText?_scalarData (tag : Option Tag) (style : Style) (s : String) :
    (scalarData tag style s).asText? = some s := by
  rcases tag with _ | tag
  · dsimp only [scalarData]
    split <;> rfl
  · dsimp only [scalarData]
    split
    · rfl
    · split <;> rfl

/-! ### Values -/

/-- A value of a document. -/
inductive Node where
  | scalar (data : Data)
  | list (items : List Node)
  | record (members : List (Node × Node))
  /-- The value of the anchor with a number. -/
  | reference (number : Nat)
  deriving Inhabited

/-- A name for a value, which may be given anew. -/
structure Anchor where
  name : String
  /-- How many names there were before.  Where a name is given anew, the next new name
  has the same number. -/
  number : Nat
  value : Node

/-- A document. -/
structure Document where
  root : Node
  /-- The anchors in the order in which their values begin. -/
  anchors : Array Anchor
  /-- The number of values and references, where lists and records count twice. -/
  size : Nat

/-- The value of the anchor with a number.  Of several the last one counts. -/
def Document.target? (d : Document) (number : Nat) : Option Node :=
  (d.anchors.findRev? (·.number = number)).map (·.value)

end Yaml
end StatementForest
