import StatementForest.Data.Format
import StatementForest.Data.Json.Parser
import StatementForest.Data.Toml.Parser
import StatementForest.Data.Yaml.Selection

/-!
# Reading a text of any format

The one way from a text to data for whoever does not care about the format.
-/

namespace StatementForest
namespace Format

/-- Read a text of a format for a reader that looks at a value of a shape. -/
def parse (format : Format) (shape : Shape) (text : String) : Option Data :=
  match format with
  | .json => Json.parse text
  | .toml => Toml.parse text
  | .yaml => Yaml.parse shape text

end Format
end StatementForest
