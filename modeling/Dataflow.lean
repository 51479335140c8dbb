import Dataflow.CommandLine.Arguments
import Dataflow.CommandLine.Basic
import Dataflow.CommandLine.Help
import Dataflow.CommandLine.Run
import Dataflow.Contraction
import Dataflow.Cursor.Basic
import Dataflow.Cursor.Motif
import Dataflow.Cursor.Paths
import Dataflow.Cursor.Remainder
import Dataflow.Definition.Basic
import Dataflow.Definition.Build
import Dataflow.Definition.Error
import Dataflow.Definition.Read
import Dataflow.Diagnostics.Basic
import Dataflow.Diagnostics.Verify
import Dataflow.Element
import Dataflow.Fields
import Dataflow.Graph.Basic
import Dataflow.Graph.Checked
import Dataflow.Graph.Dump
import Dataflow.Graph.Edit
import Dataflow.IdSet
import Dataflow.Json.Basic
import Dataflow.Json.Member
import Dataflow.Json.Read
import Dataflow.Json.Write
import Dataflow.Main
import Dataflow.Motif.Basic
import Dataflow.Motif.Matcher
import Dataflow.Motif.Target
import Dataflow.Motif.Test
import Dataflow.Planner.Compile
import Dataflow.Planner.Config
import Dataflow.Planner.ConfigRead
import Dataflow.Planner.Error
import Dataflow.Planner.Phase
import Dataflow.Planner.Plan
import Dataflow.Planner.Reshape
import Dataflow.Proofs.Contraction
import Dataflow.Proofs.Cursor.Coverage
import Dataflow.Proofs.Cursor.Laws
import Dataflow.Proofs.Cursor.Motif
import Dataflow.Proofs.Cursor.Paths
import Dataflow.Proofs.Cursor.Splitting
import Dataflow.Proofs.Cursor.Wrapping
import Dataflow.Proofs.Definition.Acceptance
import Dataflow.Proofs.Definition.Stages
import Dataflow.Proofs.Diagnostics.Verify
import Dataflow.Proofs.Fields
import Dataflow.Proofs.Flow.Basic
import Dataflow.Proofs.Flow.Chains
import Dataflow.Proofs.Flow.Collapsing
import Dataflow.Proofs.Flow.Compatibility
import Dataflow.Proofs.Flow.Connectivity
import Dataflow.Proofs.Flow.Contracts
import Dataflow.Proofs.Flow.Cuts
import Dataflow.Proofs.Flow.Definition
import Dataflow.Proofs.Flow.Drawing
import Dataflow.Proofs.Flow.Edits
import Dataflow.Proofs.Flow.Failures
import Dataflow.Proofs.Flow.Feeds
import Dataflow.Proofs.Flow.Insertion
import Dataflow.Proofs.Flow.Isolation
import Dataflow.Proofs.Flow.Merging
import Dataflow.Proofs.Flow.Names
import Dataflow.Proofs.Flow.Naming
import Dataflow.Proofs.Flow.Partitioning
import Dataflow.Proofs.Flow.Progress
import Dataflow.Proofs.Flow.Relabelling
import Dataflow.Proofs.Flow.Removal
import Dataflow.Proofs.Flow.Rules
import Dataflow.Proofs.Flow.Separation
import Dataflow.Proofs.Flow.Shape
import Dataflow.Proofs.Flow.Splits
import Dataflow.Proofs.Flow.Upheld
import Dataflow.Proofs.Flow.Ways
import Dataflow.Proofs.Graph.Arena
import Dataflow.Proofs.Graph.Checked
import Dataflow.Proofs.Graph.Inputs
import Dataflow.Proofs.Graph.Rewiring
import Dataflow.Proofs.Graph.Sessions
import Dataflow.Proofs.Graph.Splicing
import Dataflow.Proofs.Kinds
import Dataflow.Proofs.Motif.Embedding
import Dataflow.Proofs.Motif.Matcher
import Dataflow.Proofs.Motif.SearchOrder
import Dataflow.Proofs.Motif.Sight
import Dataflow.Proofs.Motif.Validation
import Dataflow.Proofs.Planner.Chains
import Dataflow.Proofs.Planner.Compatibility
import Dataflow.Proofs.Planner.Contracts
import Dataflow.Proofs.Planner.Failures
import Dataflow.Proofs.Planner.Handover
import Dataflow.Proofs.Planner.Isolation
import Dataflow.Proofs.Planner.Meaning
import Dataflow.Proofs.Planner.Names
import Dataflow.Proofs.Planner.Places
import Dataflow.Proofs.Planner.Reverification
import Dataflow.Proofs.Planner.Schedule
import Dataflow.Proofs.Quotient
import Dataflow.Proofs.Resolution.Determinacy
import Dataflow.Proofs.Resolution.Forgetting
import Dataflow.Proofs.Resolution.Labelling
import Dataflow.Proofs.Resolution.Marking
import Dataflow.Proofs.Rule.Fixpoint
import Dataflow.Proofs.Rule.JobPartitioning
import Dataflow.Proofs.Rule.JoinIsolation
import Dataflow.Proofs.Rule.SourceNormalization
import Dataflow.Proofs.Rule.SplitInsertion
import Dataflow.Proofs.Step.Cover
import Dataflow.Proofs.Step.Drafts
import Dataflow.Proofs.Step.Entanglement
import Dataflow.Proofs.Step.Numbering
import Dataflow.Proofs.Step.ParallelLinks
import Dataflow.Proofs.Step.Placed
import Dataflow.Proofs.Step.Precedence
import Dataflow.Proofs.Step.Regions
import Dataflow.Proofs.Step.Sides
import Dataflow.Proofs.Step.Sorting
import Dataflow.Proofs.Success
import Dataflow.Proofs.Topology.LeastOrder
import Dataflow.Proofs.Topology.Order
import Dataflow.Proofs.Topology.PathCounts
import Dataflow.Proofs.Topology.Reach
import Dataflow.Proofs.Topology.SimplePaths
import Dataflow.Proofs.Traversal
import Dataflow.Proofs.UnionFind
import Dataflow.Proofs.View
import Dataflow.Resolution.Output
import Dataflow.Resolution.Resolve
import Dataflow.Rule.Boundary
import Dataflow.Rule.BoundaryCollapse
import Dataflow.Rule.Fixpoint
import Dataflow.Rule.JobPartitioning
import Dataflow.Rule.JoinIsolation
import Dataflow.Rule.PassThrough
import Dataflow.Rule.SourceNormalization
import Dataflow.Rule.SplitInsertion
import Dataflow.Selection
import Dataflow.Step.Basic
import Dataflow.Step.Build
import Dataflow.Step.Draft
import Dataflow.Step.Dump
import Dataflow.Step.Json
import Dataflow.Step.Order
import Dataflow.Tap
import Dataflow.Topology.Basic
import Dataflow.Topology.Order
import Dataflow.Topology.Paths
import Dataflow.Topology.Reach
import Dataflow.UnionFind
