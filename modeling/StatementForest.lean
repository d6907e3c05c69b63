import StatementForest.Feature.Codec
import StatementForest.Identity.Codec
import StatementForest.Main
import StatementForest.Store.Codec
import StatementForest.Store.Shape
import StatementForest.Proofs.Store.Ancestry
import StatementForest.Proofs.Store.Outcome
import StatementForest.Proofs.Store.Ownership
import StatementForest.Proofs.Store.BoundedWalks
import StatementForest.Proofs.Store.ChildMoves
import StatementForest.Proofs.Store.ChildReplacement
import StatementForest.Proofs.Store.NewStatements
import StatementForest.Proofs.Store.TreesAndTops
import StatementForest.Proofs.Store.DiscardedSubtrees
import StatementForest.Proofs.Store.MergedStores
import StatementForest.Proofs.Store.AtomicMutations
import StatementForest.Proofs.Store.AddChildEffect
import StatementForest.Proofs.Store.ReplaceChildEffect
import StatementForest.Proofs.Store.ReplaceChildrenEffect
import StatementForest.Proofs.Store.CloneSubtreeEffect
import StatementForest.Proofs.Store.MutationValidity
import StatementForest.Proofs.Store.InstantiateEffect
import StatementForest.Proofs.Store.ReachableStores
import StatementForest.Proofs.Build.StoreGrowth
import StatementForest.Proofs.Build.SiblingPositions
import StatementForest.Proofs.Build.PopulateSuccess
import StatementForest.Proofs.Build.DocumentTrees
import StatementForest.Proofs.Schema.LinkingSuccess
import StatementForest.Proofs.Feature.PruningSuccess
import StatementForest.Proofs.Schema.BuildOutcome
import StatementForest.Proofs.Store.FindingPreservation
import StatementForest.Proofs.Build.StoppedRuns
import StatementForest.Proofs.Schema.FailFast
import StatementForest.Proofs.Schema.SeverityIndependence
import StatementForest.Proofs.Condition.ParserCorrectness
import StatementForest.Proofs.Build.ChildCoverage
import StatementForest.Proofs.Build.ViewedElements
import StatementForest.Proofs.Store.Renaming
import StatementForest.Proofs.Schema.DocumentOrder
import StatementForest.Proofs.Attribute.InheritedValues
import StatementForest.Proofs.Feature.PruningEffect
import StatementForest.Proofs.Feature.PruningRenaming
import StatementForest.Proofs.Collection.RollOrder
import StatementForest.Proofs.Schema.DefinitionCollection
import StatementForest.Proofs.Feature.SupportOrder
import StatementForest.Proofs.Identity.FreezeOrder
import StatementForest.Proofs.Schema.LinkingEffect
import StatementForest.Proofs.Schema.SeparateDocuments
import StatementForest.Proofs.Schema.OrderIndependence
import StatementForest.Proofs.Feature.SupportFixpoint
import StatementForest.Proofs.Feature.PruningResult
import StatementForest.Proofs.Graph.Reachability
import StatementForest.Proofs.Identity.GraphPositions
import StatementForest.Proofs.Identity.BaseReferences
import StatementForest.Proofs.Identity.DerivationQueries
import StatementForest.Proofs.Graph.ComponentInvariant
import StatementForest.Proofs.Graph.Components
import StatementForest.Proofs.Identity.DerivationCycles
import StatementForest.Proofs.Identity.CycleWalks
import StatementForest.Proofs.Identity.ParallelCollection
import StatementForest.Proofs.Schema.DefinitionPrecedence
import StatementForest.Proofs.Schema.BuildStages
import StatementForest.Proofs.Schema.FindingViews
import StatementForest.Proofs.Schema.MergeEmbedding
import StatementForest.Proofs.Schema.GrammarConformance
import StatementForest.Proofs.Attribute.SchemaAttributes
import StatementForest.Proofs.Schema.SubmoduleOwners
import StatementForest.Proofs.Schema.ModuleNames
import StatementForest.Proofs.Condition.NestingLimit
import StatementForest.Proofs.Attribute.ConfigAndStatus
import StatementForest.Proofs.Document.LexicalScope
import StatementForest.Proofs.Schema.StatementKeys
import StatementForest.Proofs.Build.VersionLabels
import StatementForest.Proofs.Store.StableNumbers
import StatementForest.Proofs.Build.CheckFaults
import StatementForest.Proofs.Build.CardinalityFindings
import StatementForest.Proofs.Build.ChildNumbering
import StatementForest.Proofs.Build.SingleUseExtensions
import StatementForest.Proofs.Build.RepeatedExtensions
import StatementForest.Proofs.Schema.ConditionQualifiers
import StatementForest.Proofs.Finding.OrderedSet
import StatementForest.Proofs.Codec.RoundTrip
import StatementForest.Proofs.Text.Shapes
import StatementForest.Proofs.Build.ArgumentLanguages
import StatementForest.Proofs.Store.WalkAgreement
