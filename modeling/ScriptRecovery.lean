import ScriptRecovery.Action.Listing
import ScriptRecovery.Recovery
import ScriptRecovery.Proofs.Arena.Coherence
import ScriptRecovery.Proofs.Flow.Exact
import ScriptRecovery.Proofs.Flow.Traces
import ScriptRecovery.Proofs.Graph.Ownership
import ScriptRecovery.Proofs.Graph.Reach
import ScriptRecovery.Proofs.Meaning
import ScriptRecovery.Proofs.Reduce.Convergence
import ScriptRecovery.Proofs.Semantics.Symbolic
import ScriptRecovery.Proofs.Arena.Refinement
import ScriptRecovery.Proofs.Lower.Statements
import ScriptRecovery.Proofs.SingleAssignment
import ScriptRecovery.Proofs.Completeness
import ScriptRecovery.Proofs.NormalForm
import ScriptRecovery.Proofs.Script.Merging
import ScriptRecovery.Proofs.Stack.Freshness
import ScriptRecovery.Arena.InPlace
import ScriptRecovery.Proofs.Arena.Locking
import ScriptRecovery.Proofs.Lower.Meaning
import ScriptRecovery.Proofs.Script.Associativity
import ScriptRecovery.Proofs.Stack.Provenance
import ScriptRecovery.Proofs.Stack.Pairing
import ScriptRecovery.Proofs.Arena.Walking
import ScriptRecovery.Proofs.Graph.Orders
import ScriptRecovery.Proofs.Reduce.Idempotence
import ScriptRecovery.Proofs.Semantics.Translations
import ScriptRecovery.Proofs.Graph.Replacing
import ScriptRecovery.Proofs.Flow.Layouts
import ScriptRecovery.Proofs.Graph.Accepted
import ScriptRecovery.Proofs.Flow.Construction
import ScriptRecovery.Proofs.Cleanup.Naming
import ScriptRecovery.Proofs.Stack.Coverage
import ScriptRecovery.Proofs.Lower.Recipes
import ScriptRecovery.Proofs.Reduce.Partition
import ScriptRecovery.Proofs.Widening
