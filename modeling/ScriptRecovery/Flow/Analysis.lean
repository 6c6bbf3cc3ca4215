import ScriptRecovery.Flow.Edge

/-!
# Analyses of a control flow graph

An analysis gives every reachable node a state.  A state is carried over an edge by `transfer`, and
the state of a node is the join of what its recorded in-edges carry to it.  A node without such an
edge has the state of the boundary.

`Analysis.solveIn` starts from `initial` everywhere and visits the nodes of an order again and
again until a full pass changes nothing.  A pass uses each new state at once.  When `transfer` and
`join` are monotone, a state only rises, so a state that can rise `height` times bounds the number
of passes: all but the last one raise a state.
-/

namespace ScriptRecovery

/-- An analysis with states in `σ`. -/
structure Analysis (σ : Type) where
  /-- The state every node starts with. -/
  initial : σ
  /-- The state of a node that nothing leads to. -/
  boundary : σ
  /-- The state after an edge. -/
  transfer : Edge → σ → σ
  /-- The state that covers two. -/
  join : σ → σ → σ

/-- The states an analysis ends with, by node, and the passes it took. -/
structure Solution (σ : Type) where
  /-- The states of the nodes in the order, nothing for the others. -/
  states : Array (Option σ)
  /-- The number of passes, the last one without a change included. -/
  passes : Nat

/-- The state of a node. -/
def Solution.state? {σ : Type} (s : Solution σ) (n : Nat) : Option σ := s.states[n]?.join

namespace Analysis

variable {σ : Type}

/-- The state that covers some states, or that of the boundary if there are none. -/
def joinAll (a : Analysis σ) : List σ → σ
  | [] => a.boundary
  | s :: ss => ss.foldl a.join s

/-- The state that the in-edges of a node carry to it. -/
def incoming (a : Analysis σ) (g : FlowGraph) (states : Array (Option σ)) (n : Nat) : σ :=
  a.joinAll ((g.inEdges n).filterMap fun e => states[e.source]?.join.map (a.transfer e.edge))

variable [DecidableEq σ]

/-- Brings the state of one node up to date, and notes whether it changed. -/
def visit (a : Analysis σ) (g : FlowGraph) (acc : Array (Option σ) × Bool) (n : Nat) :
    Array (Option σ) × Bool :=
  let s := a.incoming g acc.1 n
  if acc.1[n]? = some (some s) then acc else (acc.1.setIfInBounds n (some s), true)

/-- One pass over an order. -/
def pass (a : Analysis σ) (g : FlowGraph) (order : List Nat) (states : Array (Option σ)) :
    Array (Option σ) × Bool :=
  order.foldl (a.visit g) (states, false)

/-- Passes until one changes nothing, at most as many as the fuel. -/
def iterate (a : Analysis σ) (g : FlowGraph) (order : List Nat) (states : Array (Option σ))
    (passes : Nat) : Nat → Solution σ
  | 0 => ⟨states, passes⟩
  | fuel + 1 =>
      match a.pass g order states with
      | (states, true) => a.iterate g order states (passes + 1) fuel
      | (states, false) => ⟨states, passes + 1⟩

/-- The initial states of the nodes in an order. -/
def start (a : Analysis σ) (size : Nat) (order : List Nat) : Array (Option σ) :=
  order.foldl (fun states n => states.setIfInBounds n (some a.initial))
    (Array.replicate size none)

/-- The states of the nodes in an order, for states that can rise `height` times. -/
def solveIn (a : Analysis σ) (g : FlowGraph) (height : Nat) (order : List Nat) : Solution σ :=
  a.iterate g order (a.start g.size order) 0 (order.length * height + 1)

/-- The states of the reachable nodes, visited in reverse postorder. -/
def solve (a : Analysis σ) (g : FlowGraph) (height : Nat) : Solution σ :=
  a.solveIn g height (g.list .reversePostorder)

end Analysis

/-! ## Counting edges

The greatest number of edges of one sort that a path to a node has, counted up to a cap.  Without
the cap a cycle with such an edge would raise the count for ever. -/

namespace Analysis

/-- Counts the edges that satisfy a condition, from a number at the boundary. -/
def counting (counts : Edge → Bool) (cap boundary : Nat) : Analysis Nat where
  initial := 0
  boundary := boundary
  transfer edge n := if counts edge then min (n + 1) cap else n
  join := max

end Analysis

namespace FlowGraph

/-- The counts at every node.  No count rises above the cap and the number at the boundary. -/
def counts (g : FlowGraph) (counts : Edge → Bool) (cap boundary : Nat) : Solution Nat :=
  (Analysis.counting counts cap boundary).solve g (max cap boundary)

end FlowGraph

end ScriptRecovery
