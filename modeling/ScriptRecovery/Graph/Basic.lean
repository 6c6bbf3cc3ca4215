import ScriptRecovery.Ascending
import ScriptRecovery.Fault
import ScriptRecovery.Graph.Order

/-!
# Graphs of simple, branching and final nodes

A `Graph` is an arena of nodes with one entry.  A node has no way out yet (`pending`), one
(`simple`), two (`branch`), or it is final (`done`).  The type of edges is a parameter, since an
edge of a control flow graph may itself hold graphs.

Next to the nodes a graph keeps the set of predecessors of every node.  `Graph.indexed` fills this
index by a search from the entry, so that only reachable nodes are recorded.  The splices keep it up
to date and never fill it again.

`Graph.ofNodes` is the way in for an arena of unknown origin.  It accepts an arena when every
reachable link stays in it and no reachable node is pending.
-/

namespace ScriptRecovery

/-- An edge with its target. -/
structure Link (ε : Type) where
  /-- What happens on the way. -/
  edge : ε
  /-- The target. -/
  dest : Nat

/-- A node of a graph. -/
inductive Node (ε : Type)
  /-- A place without a way out: not yet built, or given up by a splice. -/
  | pending
  /-- The end. -/
  | done
  /-- One way out. -/
  | simple (out : Link ε)
  /-- Two ways out, chosen by a test. -/
  | branch (onTrue onFalse : Link ε)

instance {ε : Type} : Inhabited (Node ε) := ⟨.pending⟩

namespace Node

variable {ε : Type}

/-- The ways out of a node, the one for a test that holds first. -/
def links : Node ε → List (Link ε)
  | pending | done => []
  | simple out => [out]
  | branch onTrue onFalse => [onTrue, onFalse]

/-- The targets of a node. -/
def targets (n : Node ε) : List Nat := n.links.map Link.dest

/-- The way out of a node that has one. -/
def simpleOut? : Node ε → Option (Link ε)
  | simple out => some out
  | _ => none

/-- Whether a node has exactly one way out. -/
def isSimple (n : Node ε) : Bool := n.simpleOut?.isSome

/-- Whether a node is the end. -/
def isDone : Node ε → Bool
  | done => true
  | _ => false

end Node

/-- A graph with edges in `ε`. -/
structure Graph (ε : Type) where
  /-- The nodes, by position. -/
  nodes : Array (Node ε)
  /-- The entry. -/
  source : Nat
  /-- The recorded predecessors of every node. -/
  preds : Array (Ascending Nat)

/-- An edge with both its ends. -/
structure BoundEdge (ε : Type) where
  /-- Where the edge starts. -/
  source : Nat
  /-- Where it ends. -/
  dest : Nat
  /-- What happens on the way. -/
  edge : ε

namespace Graph

variable {ε : Type}

/-- The number of places of the arena. -/
def size (g : Graph ε) : Nat := g.nodes.size

/-- The node at a place. -/
def node? (g : Graph ε) (n : Nat) : Option (Node ε) := g.nodes[n]?

/-- The targets of the node at a place. -/
def targets (g : Graph ε) (n : Nat) : List Nat := (g.nodes[n]?.map Node.targets).getD []

/-- A graph by the targets of its nodes. -/
def adjacency (g : Graph ε) : Adjacency := ⟨g.size, g.targets⟩

/-- The nodes reachable from the entry in an order. -/
def list (g : Graph ε) (order : TraversalOrder) : List Nat := g.adjacency.list g.source order

/-! ## The index -/

/-- Records `n` as a predecessor of each of some nodes. -/
def record (preds : Array (Ascending Nat)) (n : Nat) (targets : List Nat) :
    Array (Ascending Nat) :=
  targets.foldl (fun preds dest => preds.modify dest (·.insert n)) preds

/-- The graph over an arena, with the index of its reachable links. -/
def indexed (nodes : Array (Node ε)) (source : Nat) : Graph ε :=
  let bare : Graph ε := ⟨nodes, source, Array.replicate nodes.size .empty⟩
  let order := bare.list .preorder
  let preds := order.foldl (fun preds n => record preds n (bare.targets n)) bare.preds
  ⟨nodes, source, preds⟩

/-- What is wrong with the node at a place: it is pending, or a link of it leaves the arena. -/
def faultAt (nodes : Array (Node ε)) (n : Nat) : Option Fault :=
  match nodes[n]? with
  | none => some (.nodeNotFound n)
  | some .pending => some (.violation (.reachablePending n))
  | some node => (node.targets.find? (nodes.size ≤ ·)).map .nodeNotFound

/-- The graph over an arena, if its entry and every reachable link are in it and no reachable node
is pending.  Nodes are examined in preorder. -/
def ofNodes (nodes : Array (Node ε)) (source : Nat) : Except Fault (Graph ε) :=
  if source < nodes.size then
    let g := indexed nodes source
    match (g.list .preorder).findSome? (faultAt nodes) with
    | some fault => .error fault
    | none => .ok g
  else .error (.nodeNotFound source)

/-! ## Edges -/

/-- The edges out of a node, the one for a test that holds first. -/
def outEdges (g : Graph ε) (n : Nat) : List (BoundEdge ε) :=
  ((g.nodes[n]?.map Node.links).getD []).map fun l => ⟨n, l.dest, l.edge⟩

/-- The recorded predecessors of a node. -/
def predecessors (g : Graph ε) (n : Nat) : Ascending Nat := g.preds[n]?.getD .empty

/-- The edges from the recorded predecessors of a node into it, ascending by predecessor. -/
def inEdges (g : Graph ε) (n : Nat) : List (BoundEdge ε) :=
  (g.predecessors n).toList.flatMap fun m => (g.outEdges m).filter (·.dest == n)

/-- The number of recorded predecessors of a node. -/
def inDegree (g : Graph ε) (n : Nat) : Nat := (g.predecessors n).size

/-- The reachable edges, grouped by where they start, in reverse postorder. -/
def edges (g : Graph ε) : List (BoundEdge ε) := (g.list .reversePostorder).flatMap g.outEdges

/-- The reachable ends, in reverse postorder. -/
def ends (g : Graph ε) : List Nat :=
  (g.list .reversePostorder).filter fun n => (g.node? n).any Node.isDone

end Graph

end ScriptRecovery
