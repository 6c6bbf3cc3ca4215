import ScriptRecovery.Flow.Pool
import ScriptRecovery.Reduce.Pass

/-!
# Texts in place of pool entries

A push of pool entries becomes a push of their texts at every node where exactly one constant pool
can be in force.  An entry past the end of the pool is undefined.
-/

namespace ScriptRecovery

/-- An operand with a pool in force. -/
def Operand.resolve (pool : Pool) : Operand → Operand
  | .constant index => (pool[index.toNat]?.map string).getD undefined
  | other => other

/-- Whether an operand is an entry of the pool. -/
def Operand.isConstant : Operand → Bool
  | .constant _ => true
  | _ => false

/-- The push that takes the place of an edge when a pool is in force. -/
def Edge.inlinePool? (pool : Pool) : Edge → Option Edge
  | .action (.push values) =>
      if values.any Operand.isConstant then
        some (.action (.push (values.map (Operand.resolve pool))))
      else none
  | _ => none

namespace FlowGraph

/-- The edges to put in place of those out of some nodes. -/
def pickEdges {α : Type} (g : FlowGraph) (pick : Nat → Edge → Option α) : List (Nat × α) :=
  (g.list .reversePostorder).filterMap fun n => do
    let out ← (← g.node? n).simpleOut?
    return (n, ← pick n out.edge)

/-- The pushes that name entries of the one pool in force. -/
def poolPushes (g : FlowGraph) (strict : Bool) : List (Nat × Edge) :=
  let states := poolStates g strict
  pickEdges g fun n edge => do
    let pool ← (← states.state? n).single?
    edge.inlinePool? pool

end FlowGraph

/-- Puts texts in place of pool entries. -/
def Pass.inlinePools (strict : Bool) : Pass where
  name := "constant-pool"
  description := "Replaces constant pool references by their string when a single pool is active"
  run _ g :=
    .ofEdits (fun g r => g.spliceEdge r.1 [r.2]) g (.ok (FlowGraph.poolPushes g strict))

end ScriptRecovery
