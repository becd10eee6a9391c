import Deflatten.Arm64.Assembly
import Deflatten.Arm64.Encoding
import Deflatten.Arm64.Blocks
import Deflatten.Arm64.Branch
import Deflatten.Arm64.Destination
import Deflatten.Arm64.Form
import Deflatten.Arm64.Lift
import Deflatten.Binary64.Basic
import Deflatten.Binary64.Decimal
import Deflatten.Collections.Distinct
import Deflatten.Collections.Table
import Deflatten.Command.Batch
import Deflatten.Command.Commands
import Deflatten.Command.Desk
import Deflatten.Command.Flags
import Deflatten.Command.Program
import Deflatten.Dispatch.Collect
import Deflatten.Dispatch.Comparison
import Deflatten.Dispatch.Config
import Deflatten.Dispatch.ConfigFile
import Deflatten.Dispatch.EngineError
import Deflatten.Dispatch.Event
import Deflatten.Dispatch.Explore
import Deflatten.Dispatch.Hub
import Deflatten.Dispatch.Region
import Deflatten.Dispatch.Report
import Deflatten.Dispatch.Stages
import Deflatten.Dispatch.Unflatten
import Deflatten.Elf.Functions
import Deflatten.Elf.Image
import Deflatten.Flattening.Flatten
import Deflatten.Flattening.Generator
import Deflatten.Flattening.Samples
import Deflatten.Graph.Calls
import Deflatten.Graph.Dot
import Deflatten.Microcode.Block
import Deflatten.Json.Basic
import Deflatten.Json.Reader
import Deflatten.Json.Writer
import Deflatten.Main
import Deflatten.Microcode.Edges
import Deflatten.Microcode.Edit
import Deflatten.Microcode.Env
import Deflatten.Microcode.Exchange
import Deflatten.Microcode.FlowError
import Deflatten.Microcode.Func
import Deflatten.Microcode.Insn
import Deflatten.Microcode.Liveness
import Deflatten.Microcode.Opcode
import Deflatten.Microcode.Operand
import Deflatten.Microcode.Run
import Deflatten.Microcode.Word
import Deflatten.Proofs.Arm64.Actions
import Deflatten.Proofs.Arm64.Blocks
import Deflatten.Proofs.Arm64.ConditionCodes
import Deflatten.Proofs.Arm64.ConditionSets
import Deflatten.Proofs.Arm64.DataEncodings
import Deflatten.Proofs.Arm64.DataProcessing
import Deflatten.Proofs.Arm64.Departures
import Deflatten.Proofs.Arm64.Emission
import Deflatten.Proofs.Arm64.FlagEncodings
import Deflatten.Proofs.Arm64.FlagJumps
import Deflatten.Proofs.Arm64.Meaning
import Deflatten.Proofs.Arm64.MemoryForms
import Deflatten.Proofs.Arm64.NarrowLoads
import Deflatten.Proofs.Arm64.Operations
import Deflatten.Proofs.Arm64.Order
import Deflatten.Proofs.Arm64.PairLoads
import Deflatten.Proofs.Arm64.Patterns
import Deflatten.Proofs.Arm64.PendingCompare
import Deflatten.Proofs.Arm64.Sources
import Deflatten.Proofs.Arm64.Tiling
import Deflatten.Proofs.Arm64.Tracking
import Deflatten.Proofs.Arm64.Translation
import Deflatten.Proofs.Arm64.Transparency
import Deflatten.Proofs.Arm64.WellFormed
import Deflatten.Proofs.Binary64.Rounding
import Deflatten.Proofs.Command.Scheduling
import Deflatten.Proofs.Dispatch.Books
import Deflatten.Proofs.Dispatch.Bypass
import Deflatten.Proofs.Dispatch.Collection
import Deflatten.Proofs.Dispatch.Descent
import Deflatten.Proofs.Dispatch.Discovery
import Deflatten.Proofs.Dispatch.Frame
import Deflatten.Proofs.Dispatch.HubChoice
import Deflatten.Proofs.Dispatch.Ledger
import Deflatten.Proofs.Dispatch.Passes
import Deflatten.Proofs.Dispatch.Paths
import Deflatten.Proofs.Dispatch.Regions
import Deflatten.Proofs.Dispatch.Removal
import Deflatten.Proofs.Dispatch.Resolution
import Deflatten.Proofs.Dispatch.Split
import Deflatten.Proofs.Dispatch.Stages
import Deflatten.Proofs.Dispatch.Tracking
import Deflatten.Proofs.Dispatch.Upkeep
import Deflatten.Proofs.Editing.Compaction
import Deflatten.Proofs.Editing.DeadStores
import Deflatten.Proofs.Editing.Edits
import Deflatten.Proofs.Editing.Elimination
import Deflatten.Proofs.Editing.JumpChains
import Deflatten.Proofs.Editing.LiveInputs
import Deflatten.Proofs.Editing.LivePaths
import Deflatten.Proofs.Editing.Liveness
import Deflatten.Proofs.Editing.Mutations
import Deflatten.Proofs.Editing.Outcomes
import Deflatten.Proofs.Editing.Relocation
import Deflatten.Proofs.Editing.Renumbering
import Deflatten.Proofs.Editing.Retarget
import Deflatten.Proofs.Editing.Shape
import Deflatten.Proofs.Editing.ThreadedRuns
import Deflatten.Proofs.Editing.Threading
import Deflatten.Proofs.Elf.Code
import Deflatten.Proofs.Elf.FunctionTable
import Deflatten.Proofs.Execution.Adequacy
import Deflatten.Proofs.Execution.Agreement
import Deflatten.Proofs.Execution.Endless
import Deflatten.Proofs.Execution.Freshness
import Deflatten.Proofs.Execution.Halting
import Deflatten.Proofs.Execution.Knowledge
import Deflatten.Proofs.Execution.Lockstep
import Deflatten.Proofs.Execution.Rounds
import Deflatten.Proofs.Execution.StepLimit
import Deflatten.Proofs.Execution.Visit
import Deflatten.Proofs.Flattening.Chain
import Deflatten.Proofs.Flattening.Constants
import Deflatten.Proofs.Flattening.Detection
import Deflatten.Proofs.Flattening.Dispatcher
import Deflatten.Proofs.Flattening.Draining
import Deflatten.Proofs.Flattening.Layout
import Deflatten.Proofs.Flattening.RoundTrip
import Deflatten.Proofs.Flattening.Simulation
import Deflatten.Proofs.Flattening.Undoing
import Deflatten.Proofs.Graph.Outlines
import Deflatten.Proofs.Json.Grammar
import Deflatten.Proofs.Json.RoundTrip
import Deflatten.Proofs.Microcode.Admission
import Deflatten.Proofs.Microcode.Evaluation
import Deflatten.Proofs.Microcode.Exchange
import Deflatten.Proofs.Microcode.FixedWidth
import Deflatten.Proofs.Microcode.Sameness
import Deflatten.Proofs.Microcode.Stream
import Deflatten.Proofs.Publish.StableOrder
import Deflatten.Proofs.Text.Escaping
import Deflatten.Proofs.Text.Numerals
import Deflatten.Publish.Diagnostics
import Deflatten.Publish.Grid
import Deflatten.Publish.Page
import Deflatten.Publish.Record
import Deflatten.Text.Bytes
import Deflatten.Text.Digits
import Deflatten.Text.Escape
import Deflatten.Text.Path
import Deflatten.Yaml.Reader
import Deflatten.Yaml.Scalar
