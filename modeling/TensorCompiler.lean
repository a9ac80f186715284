import TensorCompiler.Artifact.Binary
import TensorCompiler.Artifact.Text
import TensorCompiler.Graph.Build
import TensorCompiler.Graph.Text
import TensorCompiler.Run.Engine
import TensorCompiler.Proofs.Checks
import TensorCompiler.Proofs.Graph.UseLists
import TensorCompiler.Proofs.Graph.Verified
import TensorCompiler.Proofs.Lowering.Stream
import TensorCompiler.Proofs.Lowering.Nodes
import TensorCompiler.Proofs.Maps
import TensorCompiler.Proofs.Plan.LiveRanges
import TensorCompiler.Proofs.Lists
import TensorCompiler.Proofs.Plan.Slots
import TensorCompiler.Proofs.Graph.Reshapes
import TensorCompiler.Proofs.Lowering.Lifetimes
import TensorCompiler.Proofs.Lowering.Markers
import TensorCompiler.Proofs.Lowering.Lowered
import TensorCompiler.Proofs.Lowering.Total
import TensorCompiler.Proofs.Run.Effects
import TensorCompiler.Proofs.Run.Stores
import TensorCompiler.Proofs.Lowering.Locations
import TensorCompiler.Proofs.Lowering.Prefix
import TensorCompiler.Proofs.Run.Agree
import TensorCompiler.Proofs.Run.Reuse
import TensorCompiler.Proofs.Graph.Evaluation
import TensorCompiler.Proofs.Graph.Evaluated
import TensorCompiler.Proofs.Run.Compute
import TensorCompiler.Proofs.Run.Meaning
import TensorCompiler.Proofs.Run.Simulation
import TensorCompiler.Proofs.Kernel.Products
import TensorCompiler.Proofs.Kernel.Windows
import TensorCompiler.Proofs.Kernel.Transpose
import TensorCompiler.Proofs.Kernel.Exact
import TensorCompiler.Proofs.Kernel.Results
import TensorCompiler.Proofs.Graph.Solved
import TensorCompiler.Proofs.Graph.DeadNodes
import TensorCompiler.Proofs.Training.Tangent
import TensorCompiler.Proofs.Training.Emission
import TensorCompiler.Proofs.Training.Rules
import TensorCompiler.Proofs.Training.Sweep
import TensorCompiler.Proofs.Training.Updates
import TensorCompiler.Proofs.Graph.Arena
import TensorCompiler.Proofs.Training.Drafts
import TensorCompiler.Proofs.Training.Total
import TensorCompiler.Proofs.Graph.Reachable
import TensorCompiler.Proofs.Training.Differentiate
import TensorCompiler.Proofs.Kernel.Progress
import TensorCompiler.Proofs.Graph.Progress
import TensorCompiler.Proofs.Training.Gradient
import TensorCompiler.Proofs.Run.Engine
import TensorCompiler.Proofs.Run.Safety
import TensorCompiler.Proofs.Run.Apart
import TensorCompiler.Proofs.Run.Descent
import TensorCompiler.Proofs.Run.Late
import TensorCompiler.Proofs.Run.Training
import TensorCompiler.Proofs.Run.Writes
import TensorCompiler.Proofs.Run.Views
import TensorCompiler.Proofs.Training.Forward
import TensorCompiler.Proofs.Run.Rereads
import TensorCompiler.Proofs.Training.Recording
import TensorCompiler.Proofs.Training.Reach
import TensorCompiler.Proofs.Run.Undisturbed
import TensorCompiler.Proofs.Format.Binary
import TensorCompiler.Proofs.Artifact.Range
import TensorCompiler.Proofs.Artifact.Binary
import TensorCompiler.Proofs.Format.JsonText
import TensorCompiler.Proofs.Format.JsonNumber
import TensorCompiler.Proofs.Format.JsonValue
import TensorCompiler.Proofs.Artifact.Json
import TensorCompiler.Proofs.Training.Settings
import TensorCompiler.Proofs.Training.Parameters
import TensorCompiler.Proofs.Training.Saved
import TensorCompiler.Proofs.Graph.Sound
import TensorCompiler.Proofs.Graph.Steps
import TensorCompiler.Proofs.Names
import TensorCompiler.Proofs.Graph.Factories
import TensorCompiler.Proofs.Graph.Evolution
import TensorCompiler.Proofs.Run.History
import TensorCompiler.Proofs.Run.Again
import TensorCompiler.Proofs.Run.Accepted
import TensorCompiler.Proofs.Kernel.Adjoints
import TensorCompiler.Proofs.Lowering.Exact
import TensorCompiler.Proofs.Graph.Elimination
import TensorCompiler.Proofs.Graph.Trace
import TensorCompiler.Proofs.Plan.Paired
import TensorCompiler.Proofs.Plan.Chains
import TensorCompiler.Proofs.Plan.Optimal
import TensorCompiler.Proofs.Kernel.Padding
import TensorCompiler.Proofs.Kernel.Relabelling
import TensorCompiler.Proofs.Kernel.Samples
import TensorCompiler.Proofs.Kernel.Batches
import TensorCompiler.Proofs.Run.Requests
import TensorCompiler.Proofs.Graph.NodeNames
import TensorCompiler.Proofs.Graph.Operations
import TensorCompiler.Proofs.Graph.Naming
import TensorCompiler.Proofs.Kernel.Addressing
