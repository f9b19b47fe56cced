import NeuralGraph.Binary32.Scalar
import NeuralGraph.Binary32.Text
import NeuralGraph.Engine
import NeuralGraph.Module.Layers
import NeuralGraph.Proofs.Gradient.WellShaped
import NeuralGraph.Proofs.Lowering.Meaning
import NeuralGraph.Proofs.Program.Growth
import NeuralGraph.Proofs.Program.Verification
import NeuralGraph.Proofs.Exact.Axes
import NeuralGraph.Proofs.Exact.Kernels
import NeuralGraph.Proofs.Exact.Pairing
import NeuralGraph.Proofs.Exact.Values
import NeuralGraph.Proofs.Gradient.Adjoints
import NeuralGraph.Proofs.Gradient.Accumulators
import NeuralGraph.Proofs.Gradient.Pushes
import NeuralGraph.Proofs.Gradient.Layout
import NeuralGraph.Proofs.Gradient.Naming
import NeuralGraph.Proofs.Gradient.Refusals
import NeuralGraph.Proofs.Lowering.InPlace
import NeuralGraph.Proofs.Module.Atomicity
import NeuralGraph.Proofs.Engine.Atomicity
import NeuralGraph.Proofs.Engine.Consistency
import NeuralGraph.Proofs.Engine.Constants
import NeuralGraph.Proofs.Engine.Failures
import NeuralGraph.Proofs.Engine.Idempotence
import NeuralGraph.Proofs.Engine.Inference
import NeuralGraph.Proofs.Engine.Recompilation
import NeuralGraph.Proofs.Engine.Repetition
import NeuralGraph.Proofs.Engine.Steps
import NeuralGraph.Proofs.Lowering.ResultTypes
import NeuralGraph.Proofs.Exact.Convolution
import NeuralGraph.Proofs.Exact.Fields
import NeuralGraph.Proofs.Exact.Normalization
import NeuralGraph.Proofs.Exact.Pooling
import NeuralGraph.Proofs.Gradient.Fusion
import NeuralGraph.Proofs.Gradient.Transposition
import NeuralGraph.Proofs.Kernel.Winners
import NeuralGraph.Proofs.Kernel.Walks
import NeuralGraph.Proofs.Lowering.Order
import NeuralGraph.Proofs.Kernel.Indices
import NeuralGraph.Proofs.Program.Copies
import NeuralGraph.Proofs.Module.Draws
import NeuralGraph.Proofs.Names.Activations
