import StatementForest.Feature.Registry
import StatementForest.Statement.Codec

/-!
# The written form of features

A registry is written with its known features, each with whether it is supported.
-/

namespace StatementForest
namespace FeatureRegistry

/-- Write the known and the supported features. -/
def toData (r : FeatureRegistry) : Data :=
  .record [("len", .ofNat r.size), ("is_empty", .bool (r.size = 0)),
    ("list", .list (r.features.map fun f =>
      .list [f.toData, .text f.render, .bool (r.supports f.key)])),
    ("supported", GlobalName.renderAll r.supportedFeatures)]

end FeatureRegistry
end StatementForest
