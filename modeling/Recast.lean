import Recast.Addons.AssetImports
import Recast.Addons.Banner
import Recast.Addons.Builtin
import Recast.Addons.Manifest
import Recast.Addons.Rename
import Recast.Addons.Settings
import Recast.Build.Addon
import Recast.Build.Cache
import Recast.Build.Compiler
import Recast.Build.Context
import Recast.Build.ImportGraph
import Recast.Build.Pass
import Recast.Build.Settling
import Recast.Build.Watch
import Recast.Build.Workspace
import Recast.CommandLine.Arguments
import Recast.CommandLine.Help
import Recast.CommandLine.Run
import Recast.Config.Decoding
import Recast.Config.Loading
import Recast.Config.Project
import Recast.Config.Warning
import Recast.Decimal.Shortest
import Recast.Diagnostic
import Recast.Digest
import Recast.Distinct
import Recast.Emit.Module
import Recast.Emit.PassResult
import Recast.Emit.Rendering
import Recast.Emit.Service
import Recast.Emit.Transformer
import Recast.Failure
import Recast.Files.Disk
import Recast.Files.Glob
import Recast.Files.Ignore
import Recast.Files.Listing
import Recast.Files.Local
import Recast.Files.Memory
import Recast.Files.System
import Recast.Json
import Recast.Main
import Recast.Options
import Recast.OutputFile
import Recast.Path.Basic
import Recast.Path.Extension
import Recast.Path.Map
import Recast.Path.Normal
import Recast.Position
import Recast.Proofs.Addons.Callbacks
import Recast.Proofs.Addons.Commenting
import Recast.Proofs.Addons.Importing
import Recast.Proofs.Addons.Indexing
import Recast.Proofs.Addons.Oblivious
import Recast.Proofs.Addons.Renaming
import Recast.Proofs.Build.Activating
import Recast.Proofs.Build.Afresh
import Recast.Proofs.Build.Asking
import Recast.Proofs.Build.Changing
import Recast.Proofs.Build.Clean
import Recast.Proofs.Build.Coalescing
import Recast.Proofs.Build.Composing
import Recast.Proofs.Build.Contexts
import Recast.Proofs.Build.Convergence
import Recast.Proofs.Build.Counting
import Recast.Proofs.Build.Course
import Recast.Proofs.Build.Covering
import Recast.Proofs.Build.Diagnosing
import Recast.Proofs.Build.Draining
import Recast.Proofs.Build.Emission
import Recast.Proofs.Build.Entries
import Recast.Proofs.Build.Epoch
import Recast.Proofs.Build.Evolution
import Recast.Proofs.Build.Explaining
import Recast.Proofs.Build.Failing
import Recast.Proofs.Build.Following
import Recast.Proofs.Build.Frame
import Recast.Proofs.Build.Growing
import Recast.Proofs.Build.History
import Recast.Proofs.Build.Importers
import Recast.Proofs.Build.Incremental
import Recast.Proofs.Build.Leftover
import Recast.Proofs.Build.Lingering
import Recast.Proofs.Build.Making
import Recast.Proofs.Build.Mirroring
import Recast.Proofs.Build.Moves
import Recast.Proofs.Build.Operations
import Recast.Proofs.Build.Passes
import Recast.Proofs.Build.Phases
import Recast.Proofs.Build.Placing
import Recast.Proofs.Build.Planned
import Recast.Proofs.Build.Quiet
import Recast.Proofs.Build.Raising
import Recast.Proofs.Build.Recording
import Recast.Proofs.Build.Regime
import Recast.Proofs.Build.Registering
import Recast.Proofs.Build.Remaining
import Recast.Proofs.Build.Remembering
import Recast.Proofs.Build.Retaining
import Recast.Proofs.Build.Rooted
import Recast.Proofs.Build.Runs
import Recast.Proofs.Build.Scene
import Recast.Proofs.Build.Selecting
import Recast.Proofs.Build.Serving
import Recast.Proofs.Build.Skipping
import Recast.Proofs.Build.Steps
import Recast.Proofs.Build.Sweeping
import Recast.Proofs.Build.Targets
import Recast.Proofs.Build.Touching
import Recast.Proofs.Build.Turns
import Recast.Proofs.Build.Twins
import Recast.Proofs.Build.UpToDate
import Recast.Proofs.Build.Versions
import Recast.Proofs.Build.Watching
import Recast.Proofs.Build.Widening
import Recast.Proofs.Config.Naming
import Recast.Proofs.Config.Requesting
import Recast.Proofs.Config.Rooting
import Recast.Proofs.Config.Suggesting
import Recast.Proofs.Config.UnknownKeys
import Recast.Proofs.Emit.Acceptance
import Recast.Proofs.Emit.Agreement
import Recast.Proofs.Emit.Breaks
import Recast.Proofs.Emit.LineEndings
import Recast.Proofs.Emit.Mapping
import Recast.Proofs.Emit.Parsing
import Recast.Proofs.Emit.Transparency
import Recast.Proofs.Files.Histories
import Recast.Proofs.Files.Listings
import Recast.Proofs.Files.Places
import Recast.Proofs.Files.Watchers
import Recast.Proofs.Files.Writing
import Recast.Proofs.Path.Order
import Recast.Proofs.Path.Outputs
import Recast.Proofs.Path.Placement
import Recast.Proofs.Path.Reference
import Recast.Proofs.Path.Relative
import Recast.Proofs.Path.Sameness
import Recast.Proofs.Script.Commenting
import Recast.Proofs.Script.Erasure
import Recast.Proofs.Script.Excision
import Recast.Proofs.Script.Grammar
import Recast.Proofs.Script.Layout
import Recast.Proofs.Script.Location
import Recast.Proofs.Script.Nesting
import Recast.Proofs.Script.Partition
import Recast.Proofs.Script.Portions
import Recast.Proofs.Script.Positions
import Recast.Proofs.Script.Redeclaring
import Recast.Proofs.Script.Renaming
import Recast.Proofs.Script.Scanning
import Recast.Proofs.Script.Severing
import Recast.Proofs.Script.Standing
import Recast.Proofs.Script.Templates
import Recast.Proofs.SourceMap.Decoding
import Recast.Proofs.SourceMap.Numbers
import Recast.Proofs.SourceMap.Printing
import Recast.Proofs.SourceMap.Sources
import Recast.Proofs.Text.Edits
import Recast.Proofs.Text.Lines
import Recast.Proofs.Text.Occurrences
import Recast.Proofs.Toml.Keys
import Recast.Report
import Recast.Script.Bracket
import Recast.Script.Declaration
import Recast.Script.Lexeme
import Recast.Script.Naming
import Recast.Script.Token
import Recast.Script.Tree
import Recast.SourceMap.Mapping
import Recast.SourceMap.Vlq
import Recast.Target
import Recast.Text.Blank
import Recast.Text.EditDistance
import Recast.Text.Letter
import Recast.Text.Pieces
import Recast.Text.Visible
import Recast.Toml.DatetimeMark
import Recast.Toml.Decoding
import Recast.Toml.Document
import Recast.Toml.Scalar
import Recast.Toml.Value
