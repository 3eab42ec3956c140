import LocalFlow.Function.Printer
import LocalFlow.Generator
import LocalFlow.Graph.Dominators
import LocalFlow.Machine.Eval
import LocalFlow.Proofs.Coalescing.Preservation
import LocalFlow.Proofs.Liveness.Exactness
import LocalFlow.Proofs.Ssa.Chains
import LocalFlow.Run
import LocalFlow.Proofs.Machine.Itinerary
import LocalFlow.Proofs.Graph.Scoping
import LocalFlow.Proofs.Liveness.Totality
import LocalFlow.Proofs.Coalescing.Totality
import LocalFlow.Proofs.Coalescing.Acceptance
import LocalFlow.Proofs.Function.Shape
import LocalFlow.Proofs.Coalescing.Integrity
import LocalFlow.Proofs.Machine.Footprint
import LocalFlow.Proofs.Graph.Recorders
import LocalFlow.Proofs.Graph.Entry
import LocalFlow.Proofs.Ssa.Merging
import LocalFlow.Proofs.Function.Emission
import LocalFlow.Proofs.Generator.Steps
import LocalFlow.Proofs.Generator.Grammar
import LocalFlow.Proofs.Generator.Subjects
import LocalFlow.Proofs.Liveness.Degree
import LocalFlow.Proofs.Machine.Termination
import LocalFlow.Proofs.Coalescing.FirstFit
import LocalFlow.Proofs.Coalescing.Modules
import LocalFlow.Proofs.Liveness.Precision
import LocalFlow.Proofs.Graph.Resolution
import LocalFlow.Proofs.Machine.Fuel
import LocalFlow.Proofs.Graph.Branching
import LocalFlow.Proofs.Coalescing.Accounting
import LocalFlow.Proofs.Graph.DepthFirst
import LocalFlow.Proofs.Coalescing.Survivors
import LocalFlow.Proofs.Ssa.Descent
import LocalFlow.Proofs.Ssa.Uses
import LocalFlow.Proofs.Ssa.Safety
import LocalFlow.Proofs.Graph.CommonDominators
import LocalFlow.Proofs.Graph.Settling
import LocalFlow.Proofs.Liveness.Growth
import LocalFlow.Proofs.Graph.Linking
import LocalFlow.Proofs.Liveness.Views
import LocalFlow.Proofs.Liveness.Walk
import LocalFlow.Proofs.Ssa.Stacks
