import PCode.Main
import PCode.Real.Read
import PCode.Proofs.Building
import PCode.Proofs.Comparison
import PCode.Proofs.Codegen.Pieces
import PCode.Proofs.Codegen.Chains
import PCode.Proofs.Codegen.Missing
import PCode.Proofs.Codegen.Transfers
import PCode.Proofs.Machine.Containment
import PCode.Proofs.Machine.Instructions
import PCode.Proofs.Machine.Release
import PCode.Proofs.Simulation.CompiledExpr
import PCode.Proofs.Simulation.CompiledStmt
import PCode.Proofs.Simulation.Counting
import PCode.Proofs.Run.Arguments
import PCode.Proofs.Run.Batches
import PCode.Proofs.Run.CallStack
import PCode.Proofs.Run.Entry
import PCode.Proofs.Run.Lines
import PCode.Proofs.Trace.Prefixes
import PCode.Proofs.Tree.Places
import PCode.Proofs.Word
import PCode.Proofs.Machine.Arithmetic
import PCode.Proofs.Profile
import PCode.Proofs.Run.Parameters
import PCode.Proofs.Tree.Naming
