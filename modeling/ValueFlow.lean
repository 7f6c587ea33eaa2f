import ValueFlow.Analysis
import ValueFlow.Proofs.Value
import ValueFlow.Settings.Text
import ValueFlow.Proofs.Normalize
import ValueFlow.Proofs.PostFixpoint
import ValueFlow.Proofs.Convergence
import ValueFlow.Proofs.Block
import ValueFlow.Proofs.Operation
import ValueFlow.Proofs.Aliasing
import ValueFlow.Proofs.Memory
import ValueFlow.Proofs.Registers
import ValueFlow.Proofs.State
import ValueFlow.Proofs.Transfer
import ValueFlow.Proofs.Entries
import ValueFlow.Proofs.Liveness
import ValueFlow.Proofs.Height
import ValueFlow.Proofs.Analysis
import ValueFlow.Proofs.LeastSolution
import ValueFlow.Proofs.Escape
import ValueFlow.Proofs.Reachability
import ValueFlow.Proofs.Acceptance
import ValueFlow.Proofs.Layout
import ValueFlow.Proofs.Initializer
import ValueFlow.Proofs.FloatConstants
import ValueFlow.Proofs.Update
import ValueFlow.Proofs.Copy
import ValueFlow.Proofs.Provenance
import ValueFlow.Proofs.Termination
import ValueFlow.Proofs.OnePass
import ValueFlow.Proofs.Growth
import ValueFlow.Proofs.Fiber
import ValueFlow.Proofs.Settings
