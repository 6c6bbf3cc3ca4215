import ScriptRecovery.Graph.Marks

/-!
# Orders of a graph

A graph is seen here through its number of nodes and the successors of each, `Adjacency`.  The
successors may name ids outside the graph, which are passed over, and a start outside the graph
gives the empty order.

* `preorder` takes nodes off a stack.  A node is marked when it goes on the stack, and successors
  go on it in their order, so the last one is explored first.
* `postorder` is the order in which a depth-first search that explores successors in their order
  leaves the nodes.
* `reversePostorder` is that order backwards.  On a graph without cycles it is topological.

Both searches are written over an explicit list of what is still to do, and end by the count of
free nodes of `Marks`.
-/

namespace ScriptRecovery

/-- A graph with nodes `0, …, size - 1`, by the successors of each node. -/
structure Adjacency where
  /-- The number of nodes. -/
  size : Nat
  /-- The successors of a node, in order. -/
  successors : Nat → List Nat

namespace Adjacency

/-! ## Preorder -/

/-- The nodes taken off a stack until it is empty. -/
def drain (a : Adjacency) (marks : Marks) : List Nat → List Nat
  | [] => []
  | node :: stack =>
      let enlisted := marks.enlist stack (a.successors node)
      node :: a.drain enlisted.1 enlisted.2
termination_by stack => marks.free + stack.length
decreasing_by
  rw [Marks.free_enlist]
  simp

/-- The nodes reachable from `start`, each when it leaves the stack. -/
def preorder (a : Adjacency) (start : Nat) : List Nat :=
  if start < a.size then a.drain ((Marks.none a.size).mark start) [start] else []

/-! ## Postorder -/

/-- What a depth-first search has still to do. -/
inductive Task
  /-- Explore a node, unless it is marked. -/
  | enter (node : Nat)
  /-- List a node, all of whose successors are explored. -/
  | leave (node : Nat)

/-- The nodes that a depth-first search leaves, in order. -/
def leaving (a : Adjacency) (marks : Marks) : List Task → List Nat
  | [] => []
  | .leave node :: tasks => node :: a.leaving marks tasks
  | .enter node :: tasks =>
      if marks.isFree node then
        a.leaving (marks.mark node) ((a.successors node).map .enter ++ .leave node :: tasks)
      else a.leaving marks tasks
termination_by tasks => (marks.free, tasks.length)
decreasing_by
  · exact Prod.Lex.right _ (by simp)
  · next h => exact Prod.Lex.left _ _ (by have := Marks.free_mark h; omega)
  · exact Prod.Lex.right _ (by simp)

/-- The nodes reachable from `start`, each after its successors are explored. -/
def postorder (a : Adjacency) (start : Nat) : List Nat :=
  a.leaving (Marks.none a.size) [.enter start]

/-- The postorder backwards. -/
def reversePostorder (a : Adjacency) (start : Nat) : List Nat :=
  (a.postorder start).reverse

end Adjacency

/-- The three orders in which a graph lists its nodes. -/
inductive TraversalOrder
  | preorder | postorder | reversePostorder
  deriving DecidableEq, Inhabited

/-- The nodes reachable from `start` in an order. -/
def Adjacency.list (a : Adjacency) (start : Nat) : TraversalOrder → List Nat
  | .preorder => a.preorder start
  | .postorder => a.postorder start
  | .reversePostorder => a.reversePostorder start

end ScriptRecovery
