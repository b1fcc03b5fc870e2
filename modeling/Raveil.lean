import Raveil.Lib.Loops
import Raveil.Lib.Bits
import Raveil.Lib.RowMajor
import Raveil.Fold.Config
import Raveil.Fold.Validate
import Raveil.Fold.Evaluate
import Raveil.Lib.Dict
import Raveil.Fold.Region
import Raveil.Flow.Lowers
import Raveil.Flow.Planner
import Raveil.Flow.Stages
import Raveil.Flow.Structure
import Raveil.Fold.Allocation
import Raveil.Fold.Compile
import Raveil.Fold.Controller
import Raveil.Fold.ControllerValidate
import Raveil.Fold.Safety
import Raveil.Fold.Memory
import Raveil.Lib.RingBuffer
import Raveil.Authority.Contract
import Raveil.Authority.Capability
import Raveil.Authority.JobAuthority
import Raveil.Authority.Operations
import Raveil.Authority.Structure
import Raveil.Authority.Order
import Raveil.Authority.History
import Raveil.Lib.Table
import Raveil.Lib.Words
import Raveil.Lib.Envelope
import Raveil.Lib.Hash
import Raveil.Authority.Publication
import Raveil.Authority.Idle
import Raveil.Fold.Wire
import Raveil.Fold.Bridge
import Raveil.Fold.Batch
import Raveil.Dispatch.Guest
import Raveil.Dispatch.Whole
import Raveil.Fold.Response
import Raveil.Dispatch.Exchange
import Raveil.Dispatch.Commit
import Raveil.Dispatch.Ready
import Raveil.Session.Wire
import Raveil.Session.RoundTrip
import Raveil.Chain.Wire
import Raveil.Chain.Facts
import Raveil.Chain.RoundTrip
import Raveil.Chain.State
import Raveil.Chain.Host
import Raveil.Chain.Guest
import Raveil.Chain.Bank
import Raveil.Chain.Simulation
import Raveil.Chain.Agreement
import Raveil.Lib.FirstFit
import Raveil.Dag.Envelope
import Raveil.Dag.Decode
import Raveil.Dag.Plan
import Raveil.Dag.PlanFacts
import Raveil.Dag.Layout
import Raveil.Dag.Agreement
import Raveil.Dag.Guest
import Raveil.Dag.Shape
import Raveil.Dag.Store
import Raveil.Dag.Words
import Raveil.Dag.Bank
import Raveil.Dag.Simulation
import Raveil.Dag.Runs
import Raveil.Dag.Host
import Raveil.Lib.Matcher
import Raveil.Console.Prose
import Raveil.Authority.Handles
import Raveil.Authority.Cancel
import Raveil.Lib.Schedule
import Raveil.Lib.Registers
import Raveil.Graph.Descriptor
import Raveil.Graph.Program
import Raveil.Graph.Compile
import Raveil.Graph.Emission
import Raveil.Graph.Lowering
import Raveil.Graph.Correct
import Raveil.Graph.Safety
import Raveil.Graph.Validators
import Raveil.Graph.Installer
import Raveil.Device.Config
import Raveil.Device.Installers
import Raveil.Device.Core
import Raveil.Device.Region
import Raveil.Device.Assertions
import Raveil.Device.Isolation
import Raveil.Device.Kernel
import Raveil.Device.Datapath
import Raveil.Device.Execute
import Raveil.Device.Refines
import Raveil.Device.Output
import Raveil.Device.Stale
import Raveil.Device.Shell
import Raveil.Device.Turns
import Raveil.Device.Drive
import Raveil.Device.Registers
import Raveil.Device.Holding
import Raveil.Device.Protocol
import Raveil.Device.Verdict
import Raveil.Device.Session
import Raveil.Device.Authority
import Raveil.Lib.Interleave
import Raveil.Command.Json
import Raveil.Command.Program
import Raveil.Command.Paths
import Raveil.Command.Text
import Raveil.Command.Tools
import Raveil.Command.Compile
import Raveil.Command.Stage
import Raveil.Command.Executors
import Raveil.Command.Footprint
import Raveil.Command.Steps
import Raveil.Command.Order
import Raveil.Command.Emission
import Raveil.Command.Agreement
import Raveil.Command.Guard
import Raveil.Command.Fanout
import Raveil.Command.Audit
import Raveil.Command.Publish
import Raveil.Lib.Fresh
import Raveil.Grid.Admission
import Raveil.Grid.Lowered
import Raveil.Grid.Numeric
import Raveil.Grid.Reference
import Raveil.Grid.Source
import Raveil.Grid.Tiles
import Raveil.Lib.WriteOnce
import Raveil.Grid.Evaluated
import Raveil.Grid.Assembly
import Raveil.Grid.Tiled
import Raveil.Lib.Topological
import Raveil.Flow.Executed
import Raveil.Native.Kernels
import Raveil.Native.Gemm
import Raveil.Native.Main
import Raveil.Native.Oracle
import Raveil.Native.Agreement
import Raveil.Demo.Lifecycle
import Raveil.Demo.Runs
import Raveil.Graph.RequestAgreement
import Raveil.Graph.TraceSound
import Raveil.Authority.Staging
import Raveil.Authority.ContractRules
import Raveil.Telemetry.FrameRoundTrip
import Raveil.Telemetry.FailedIngest
import Raveil.Lib.Best
import Raveil.Experience.Store
import Raveil.Experience.Consolidate
import Raveil.Experience.Restart
import Raveil.Memory.Scratchpad
import Raveil.Rocket.Observer
import Raveil.Rocket.Ledger
import Raveil.Rocket.Lifecycle
import Raveil.Tiling.Assembly
import Raveil.Tiling.Correct
import Raveil.Tiling.Denotation
import Raveil.Tiling.Kernel
import Raveil.Tiling.Reference
import Raveil.Lib.Allocator
import Raveil.Kernel.Pages
import Raveil.Lib.Frames
import Raveil.Kernel.AddressSpace
import Raveil.Kernel.Tasks
import Raveil.Kernel.Ipc
import Raveil.Kernel.Delivery
import Raveil.Experience.Lines
import Raveil.Experience.Provenance
import Raveil.Experience.Failure
import Raveil.Mvp.Values
import Raveil.Mvp.Program
import Raveil.Mvp.Variant
import Raveil.Mvp.Proposal
import Raveil.Mvp.Executor
import Raveil.Mvp.Agreement
import Raveil.ArrayProgram.Program
import Raveil.ArrayProgram.Bound
import Raveil.ArrayProgram.Structure
import Raveil.ArrayProgram.Denotation
import Raveil.ArrayProgram.Emitted
import Raveil.ArrayProgram.Stages
import Raveil.ArrayProgram.Alike
import Raveil.ArrayProgram.Planned
import Raveil.ArrayProgram.Executed
import Raveil.ArrayProgram.Resources
import Raveil.ArrayProgram.Independent
import Raveil.Telemetry.History
