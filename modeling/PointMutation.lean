import PointMutation.Config.Basic
import PointMutation.Config.Distribution
import PointMutation.Declaration
import PointMutation.Edit
import PointMutation.Engine
import PointMutation.Fault
import PointMutation.Fold
import PointMutation.Literal
import PointMutation.Mutator.Basic
import PointMutation.Mutator.Insertion
import PointMutation.Mutator.Run
import PointMutation.Mutator.Wrapping
import PointMutation.Number.Decimal
import PointMutation.Outline
import PointMutation.Random.Block
import PointMutation.Random.Draw
import PointMutation.Snippet
import PointMutation.Syntax.Grammar
import PointMutation.Toml.Value
import PointMutation.Toml.Quoted
import PointMutation.Toml.Scalar
import PointMutation.Toml.Table
import PointMutation.Toml.Document
import PointMutation.Config.File
import PointMutation.Text.Debug
import PointMutation.Diff.Script
import PointMutation.Diff.Shortest
import PointMutation.Diff.Slide
import PointMutation.Diff.Render
import PointMutation.Files.Path
import PointMutation.Files.Tree
import PointMutation.Files.Listing
import PointMutation.Batch.Job
import PointMutation.Batch.Process
import PointMutation.Batch.Report
import PointMutation.CommandLine
import PointMutation.Proofs.Nesting.Reading
import PointMutation.Proofs.Rewriting.Refinement
import PointMutation.Proofs.Declaration.Statement
import PointMutation.Proofs.Insertion.Pass
import PointMutation.Proofs.Text.Lines
import PointMutation.Proofs.Mutator.Passes
import PointMutation.Proofs.Insertion.Setup
import PointMutation.Proofs.Walk.Triple
import PointMutation.Proofs.Walk.Single
import PointMutation.Proofs.Wrapping.Values
import PointMutation.Proofs.Wrapping.Places
import PointMutation.Proofs.Wrapping.Pass
import PointMutation.Proofs.Wrapping.First
import PointMutation.Proofs.Nesting.Within
import PointMutation.Proofs.Insertion.Statements
import PointMutation.Proofs.Wrapping.Rounds
import PointMutation.Proofs.Random.Weighted
import PointMutation.Proofs.Engine.Faults
import PointMutation.Proofs.Engine.Standard
import PointMutation.Proofs.Engine.Rounds
import PointMutation.Proofs.Files.Path
import PointMutation.Proofs.Files.Tree
import PointMutation.Proofs.Files.Writing
import PointMutation.Proofs.Batch.Discovery
import PointMutation.Proofs.Batch.Schedule
import PointMutation.Proofs.Walk.Invariant
import PointMutation.Proofs.Mutator.Attempts
import PointMutation.Proofs.Mutator.Calls
import PointMutation.Proofs.Mutator.Lifecycle
import PointMutation.Proofs.Engine.Trail
import PointMutation.Proofs.Batch.Accounts
import PointMutation.Proofs.Batch.Requests
import PointMutation.Proofs.Insertion.Lines
import PointMutation.Proofs.Insertion.Leading
import PointMutation.Proofs.Engine.Selection
import PointMutation.Proofs.Batch.Listing
import PointMutation.Proofs.Config.Files
import PointMutation.Proofs.Removal.Statements
import PointMutation.Proofs.Mutator.Commits
import PointMutation.Proofs.Walk.Score
import PointMutation.Proofs.Walk.Drawn
import PointMutation.Proofs.Walk.Protocol
import PointMutation.Proofs.Walk.Rows
import PointMutation.Proofs.Walk.Offers
import PointMutation.Proofs.Text.Rows
import PointMutation.Proofs.Splicing.Layout
import PointMutation.Proofs.Splicing.Pass
import PointMutation.Proofs.Mutator.Retries
import PointMutation.Proofs.Engine.Choices
import PointMutation.Proofs.Number.Order
import PointMutation.Proofs.Random.Ranges
import PointMutation.Proofs.Insertion.Chances
import PointMutation.Proofs.Insertion.Counters
import PointMutation.Proofs.Diff.Rendering
import PointMutation.Proofs.Rewriting.Disjoint
