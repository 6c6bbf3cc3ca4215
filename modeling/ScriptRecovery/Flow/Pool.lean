import ScriptRecovery.Flow.Analysis

/-!
# Constant pools in force

A push names texts by their position in the constant pool that was defined last.  This analysis
says for every node which pools that can be.

* `PoolState.uninitialized`: the node was not reached.
* `PoolState.oneOf pools`: the last definition is one of these.
* `PoolState.any`: nothing is known.

The states are ordered in this way, sets by inclusion, and `PoolState.join` is the least state
above two.  In the strict mode every action but a definition may change the pool.
-/

namespace ScriptRecovery

/-- A constant pool. -/
abbrev Pool := List String

/-- What is known of the constant pool in force. -/
inductive PoolState
  /-- Nothing is known. -/
  | any
  /-- The place was not reached. -/
  | uninitialized
  /-- It is one of some pools. -/
  | oneOf (pools : Ascending Pool)
  deriving DecidableEq

namespace PoolState

instance : Inhabited PoolState := ⟨any⟩

/-- The state after a definition. -/
def defined (pool : Pool) : PoolState := oneOf (.singleton pool)

/-- The one pool that can be in force. -/
def single? : PoolState → Option Pool
  | oneOf pools => pools.single?
  | any | uninitialized => none

/-- The least state above two. -/
def join : PoolState → PoolState → PoolState
  | any, _ | _, any => any
  | uninitialized, s | s, uninitialized => s
  | oneOf pools, oneOf others => oneOf (pools.union others)

/-- Whether nothing is known. -/
def isTop : PoolState → Bool
  | any => true
  | _ => false

/-- The state after an edge. -/
def transfer (strict : Bool) : Edge → PoolState → PoolState
  | .action (.constantPool pool), _ => defined pool
  | .action _, s => if strict then any else s
  | .plain, s | .ifTrue, s | .ifFalse, s | .ifTest, s => s
  | .template _, _ | .conditional .., _ | .marker _, _ | .sub, _ => any

/-- The analysis of constant pools. -/
def analysis (strict : Bool) : Analysis PoolState where
  initial := uninitialized
  boundary := any
  transfer := transfer strict
  join := join

end PoolState

namespace FlowGraph

/-- The pools that reachable actions define. -/
def pools (g : FlowGraph) : List Pool :=
  (Graph.edges g).filterMap fun e =>
    match e.edge with
    | .action (.constantPool pool) => some pool
    | _ => none

/-- The pools that can be in force at every node.  A state rises from `uninitialized` to a set,
grows by one pool at a time, and ends at `any`. -/
def poolStates (g : FlowGraph) (strict : Bool) : Solution PoolState :=
  (PoolState.analysis strict).solve g (g.pools.length + 2)

end FlowGraph

end ScriptRecovery
