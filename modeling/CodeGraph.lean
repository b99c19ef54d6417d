import CodeGraph.Config.Document
import CodeGraph.Engine.Runner
import CodeGraph.Query.Reachability
import CodeGraph.Store.Memory
import CodeGraph.Table.Edit
import CodeGraph.Proofs.Binding
import CodeGraph.Proofs.Wp
import CodeGraph.Proofs.Reading
import CodeGraph.Proofs.Faithful
import CodeGraph.Proofs.Acceptance
import CodeGraph.Proofs.Listing
import CodeGraph.Proofs.TableSet
import CodeGraph.Proofs.Scan
import CodeGraph.Proofs.Classification
import CodeGraph.Proofs.Stages
import CodeGraph.Proofs.QueryState
import CodeGraph.Proofs.FailedStage
import CodeGraph.Proofs.Findings
import CodeGraph.Proofs.Rounds
import CodeGraph.Proofs.FlowRun
import CodeGraph.Proofs.ReachabilityQuery
import CodeGraph.Proofs.FailedSelection
import CodeGraph.Proofs.TwoRuns
import CodeGraph.Proofs.PairedTables
import CodeGraph.Proofs.Lockstep
import CodeGraph.Proofs.Counterparts
import CodeGraph.Proofs.Transforms
import CodeGraph.Proofs.TwinStages
import CodeGraph.Proofs.CacheTransparency
import CodeGraph.Proofs.QueryIsolation
import CodeGraph.Proofs.OrderOfUse
import CodeGraph.Proofs.EmptyColumn
import CodeGraph.Proofs.Abreast
import CodeGraph.Proofs.AbsentBarrier
import CodeGraph.Proofs.Resolving
import CodeGraph.Proofs.Recency
import CodeGraph.Proofs.StagedPairs
import CodeGraph.Proofs.TableShape
import CodeGraph.Proofs.Slots
import CodeGraph.Proofs.Procedures
import CodeGraph.Proofs.Spelling
import CodeGraph.Proofs.ReadBack
import CodeGraph.Proofs.Views
import CodeGraph.Proofs.Records
import CodeGraph.Proofs.Nesting
import CodeGraph.Proofs.Replacing
import CodeGraph.Proofs.Commutation
import CodeGraph.Proofs.Dumps
import CodeGraph.Proofs.FlowRows
import CodeGraph.Proofs.Sights
import CodeGraph.Proofs.Reaching
import CodeGraph.Proofs.ReachedSinks
import CodeGraph.Proofs.ShortestPaths
import CodeGraph.Proofs.DepthLimit
import CodeGraph.Proofs.RetracedPaths
import CodeGraph.Proofs.Projection
import CodeGraph.Proofs.FlowSuccess
import CodeGraph.Proofs.SearchRequests
import CodeGraph.Proofs.SinkNeutrality
import CodeGraph.Proofs.RowView
import CodeGraph.Proofs.ColumnIndex
import CodeGraph.Proofs.Filtering
import CodeGraph.Proofs.BoundTrees
import CodeGraph.Proofs.PipeTables
import CodeGraph.Proofs.BuiltTables
import CodeGraph.Proofs.Rendering
import CodeGraph.Proofs.Registering
import CodeGraph.Proofs.LatestRows
import CodeGraph.Proofs.FilledStores
import CodeGraph.Proofs.Skipping
import CodeGraph.Proofs.WrappedSources
import CodeGraph.Proofs.CellEquality
import CodeGraph.Proofs.Preorder
import CodeGraph.Proofs.FirstRows
import CodeGraph.Proofs.SavedOptions
import CodeGraph.Proofs.LaterRules
import CodeGraph.Proofs.Counting
