import StatementForest.Data.Basic

/-!
# Text formats

The formats in which data is written, the file extensions that announce them, and
what each of them lets stand for a record or for one of several words.
-/

namespace StatementForest

/-- A text format for data. -/
inductive Format where
  | json
  | toml
  | yaml
  deriving DecidableEq, Repr

namespace Format

/-- The format that a file extension announces. -/
def ofExtension? : String → Option Format
  | "json" => some .json
  | "toml" => some .toml
  | "yaml" | "yml" => some .yaml
  | _ => none

/-- Whether the values of the first fields of a record may be written as a list. -/
def hasPositionalRecords : Format → Bool
  | .yaml => false
  | _ => true

/-- Whether a word may be written as a record that has the word as the name of its
only member and the given value for it. -/
def standsForWord : Format → Data → Bool
  | .json, .null => true
  | .toml, .list [] => true
  | .toml, .record [] => true
  | _, _ => false

end Format

end StatementForest
