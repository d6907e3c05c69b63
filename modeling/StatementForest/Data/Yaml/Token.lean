import StatementForest.Data.Yaml.Scalar

/-!
# Tokens of YAML text

The structure that indentation shows becomes tokens of its own: blocks have a first
and a last token, and a key in front of a colon has a token in front of it.
-/

namespace StatementForest
namespace Yaml

/-- A token. -/
inductive Token where
  /-- The directive that names the version of the format. -/
  | version (major minor : Nat)
  /-- The directive that gives the meaning of a handle in front of tags. -/
  | handle (name meaning : String)
  | documentStart
  | documentEnd
  | listStart
  | recordStart
  /-- The end of a list or record over several lines. -/
  | blockEnd
  | flowListStart
  | flowListEnd
  | flowRecordStart
  | flowRecordEnd
  /-- The dash in front of an item. -/
  | item
  /-- The comma behind an item or a member. -/
  | flowEntry
  | key
  | value
  /-- The name of an earlier value, which stands here once more. -/
  | reference (name : String)
  | anchor (name : String)
  /-- A tag: the handle in front of it, if it has one, and the rest. -/
  | tag (handle suffix : String)
  | scalar (style : Style) (text : String)
  deriving DecidableEq, Repr

namespace Token

/-- Whether a token may follow an entry of a list on one line. -/
def isFlowEnd : Token → Bool
  | .flowEntry | .flowListEnd => true
  | _ => false

end Token
end Yaml
end StatementForest
