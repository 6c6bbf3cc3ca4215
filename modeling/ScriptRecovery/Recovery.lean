import ScriptRecovery.Action.Stream
import ScriptRecovery.Cleanup.Builtins
import ScriptRecovery.Cleanup.Statements
import ScriptRecovery.Flow.Build
import ScriptRecovery.Lower.Graph
import ScriptRecovery.Reduce.Chains
import ScriptRecovery.Reduce.Conditionals
import ScriptRecovery.Reduce.Templates
import ScriptRecovery.Stack.Elimination

/-!
# From streams to scripts

Recovery of a script from a stream of actions, in the order of its stages.

* The stream becomes a graph, which the passes of the pipeline reduce.  Texts take the place of pool
  entries first, since a template no longer shows which push it came from.  Chains come before
  conditionals, which hold what the chains have become.
* The graph is said in statements, if the passes have left one path.
* The statements become a syntax tree.  Temporaries take the place of pushes and pops there, names
  that of builtins, and statements without effect are taken out.
-/

namespace ScriptRecovery

/-- The row of passes that recovery runs on a graph. -/
def Schedule.pipeline (traceName : String) (strict fixpoint : Bool) (maxIterations : Nat) :
    Schedule where
  passes :=
    [.inlinePools strict, .formTemplates traceName, .mergeChains, .formConditionals]
  fixpoint := fixpoint
  maxIterations := maxIterations

/-- The choices of a recovery. -/
structure Config where
  /-- The names of the builtins. -/
  names : BuiltinNames := {}
  /-- Whether the passes are repeated until nothing changes. -/
  fixpoint : Bool := false
  /-- Whether every action may change the constant pool. -/
  strict : Bool := false
  /-- The greatest number of repetitions. -/
  maxIterations : Nat := 16
  deriving DecidableEq, Inhabited

namespace Config

/-- The choices that repeat the passes. -/
def thorough : Config := { fixpoint := true }

/-- The schedule of the passes. -/
def schedule (c : Config) : Schedule :=
  .pipeline c.names.trace c.strict c.fixpoint c.maxIterations

/-- The reduced graph of a stream. -/
def graphOf (c : Config) (s : Stream) : Except Fault FlowGraph := do
  (c.schedule.run (← FlowGraph.ofStream s)).toExcept

/-- The script of lowered statements. -/
def clean (c : Config) (s : Script) : Except Fault Script := do
  let t := SyntaxTree.ofScript s
  let t ← t.bindPushes.toExcept
  let t ← (t.nameBuiltins c.names).toExcept
  let t ← t.dropUnusedPools.toExcept
  let t ← t.dropEmptyStatements.toExcept
  t.toScript

/-- The script of a reduced graph. -/
def scriptOf (c : Config) (g : FlowGraph) : Except Fault Script := do
  c.clean (← FlowGraph.toScript g {})

/-- The script of a stream. -/
def recover (c : Config) (s : Stream) : Except Fault Script := do
  c.scriptOf (← c.graphOf s)

end Config

end ScriptRecovery
