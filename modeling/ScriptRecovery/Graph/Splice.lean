import ScriptRecovery.Graph.Basic

/-!
# Splicing rows of edges into a graph

A splice puts a row of edges in place of something that goes from one node to another.

* `spliceEdge`: the one way out of a node.
* `spliceChain`: a chain of nodes with one way out each, all but the first of which belong to the
  chain alone.
* `spliceRegion`: everything that is reachable from one node without passing another.

The first node stays and so does the destination.  What lies between is given up and left pending.
A row of several edges gets new nodes for the places between them, at the end of the arena, the
last place first.  An empty row stands for the one edge that does nothing, `PlainEdge.plain`.

A splice checks everything before it changes anything, and a refused one has no result.  The one
fault that is not a refusal is `Fault.linkOutsideArena`: links of unreachable nodes are never
checked, and a splice that has to follow such a link out of the arena cannot go on.
-/

namespace ScriptRecovery

/-- Edges among which one does nothing. -/
class PlainEdge (ε : Type) where
  /-- The edge that does nothing. -/
  plain : ε

namespace Graph

variable {ε : Type}

/-! ## Single steps -/

/-- The target of a node with one way out. -/
def outTarget (g : Graph ε) (n : Nat) : Except Fault Nat :=
  match g.nodes[n]? with
  | none => .error (.nodeNotFound n)
  | some (.simple out) => .ok out.dest
  | some .pending => .error (.violation (.notSimple n .pending))
  | some .done => .error (.violation (.notSimple n .done))
  | some (.branch onTrue onFalse) =>
      .error (.violation (.notSimple n (.branch onTrue.dest onFalse.dest)))

/-- Forgets `n` as a predecessor of a node. -/
def unlink (g : Graph ε) (n dest : Nat) : Graph ε :=
  { g with preds := g.preds.modify dest (·.erase n) }

/-- Gives `n` one way out and records it. -/
def link (g : Graph ε) (n : Nat) (edge : ε) (dest : Nat) : Except Fault (Graph ε) :=
  if dest < g.preds.size then
    .ok { g with
      nodes := g.nodes.setIfInBounds n (.simple ⟨edge, dest⟩)
      preds := g.preds.modify dest (·.insert n) }
  else .error .linkOutsideArena

/-- Adds a pending node at the end of the arena. -/
def grow (g : Graph ε) : Graph ε :=
  { g with nodes := g.nodes.push .pending, preds := g.preds.push .empty }

/-- Gives up the nodes at some places. -/
def vacate (g : Graph ε) (ns : List Nat) : Graph ε :=
  { g with nodes := ns.foldl (fun nodes n => nodes.setIfInBounds n .pending) g.nodes }

/-- Lays a row of edges that ends at `dest` over new nodes, the last edge first.  The result is the
node where the row starts. -/
def pave (g : Graph ε) (dest : Nat) : List ε → Except Fault (Graph ε × Nat)
  | [] => .ok (g, dest)
  | edge :: edges => do
      let (g, next) ← g.pave dest edges
      let g ← g.grow.link g.size edge next
      return (g, g.size - 1)

/-- Lays a row of edges from one node to another. -/
def layEdges [PlainEdge ε] (g : Graph ε) (n dest : Nat) : List ε → Except Fault (Graph ε)
  | [] => g.link n PlainEdge.plain dest
  | edge :: edges => do
      let (g, next) ← g.pave dest edges
      g.link n edge next

/-! ## One edge -/

/-- Puts a row of edges in place of the one way out of a node. -/
def spliceEdge [PlainEdge ε] (g : Graph ε) (n : Nat) (edges : List ε) :
    Except Fault (Graph ε) := do
  let dest ← g.outTarget n
  (g.unlink n dest).layEdges n dest edges

/-! ## Chains -/

/-- The target of the last node of a chain whose nodes so far lead to `next`.  Each further node
must be the one the chain leads to, must not be the entry, and must have one predecessor and one
way out. -/
def chainTarget (g : Graph ε) (next : Nat) : List Nat → Except Fault Nat
  | [] => .ok next
  | n :: ns =>
      if n = g.source ∨ g.inDegree n ≠ 1 ∨ next ≠ n then .error .invalidChain
      else match g.outTarget n with
        | .ok dest => g.chainTarget dest ns
        | .error _ => .error .invalidChain

/-- Forgets the links of a chain that starts at `n` and ends at `dest`. -/
def unlinkChain (g : Graph ε) (n dest : Nat) : List Nat → Graph ε
  | [] => g.unlink n dest
  | m :: ms => (g.unlink n m).unlinkChain m dest ms

/-- Puts a row of edges in place of a chain. -/
def spliceChain [PlainEdge ε] (g : Graph ε) (chain : List Nat) (edges : List ε) :
    Except Fault (Graph ε) :=
  match chain with
  | [] => .error .emptyChain
  | first :: rest =>
      match g.outTarget first with
      | .error _ => .error .invalidChain
      | .ok next => do
          let dest ← g.chainTarget next rest
          ((g.unlinkChain first dest rest).vacate rest).layEdges first dest edges

/-! ## Regions -/

/-- The nodes reachable from `start` without passing `dest`, `start` first. -/
def region (g : Graph ε) (start dest : Nat) : List Nat :=
  Adjacency.preorder ⟨g.size, fun n => (g.targets n).filter (· != dest)⟩ start

/-- Forgets every link of some nodes. -/
def unlinkAll (g : Graph ε) (ns : List Nat) : Graph ε :=
  ns.foldl (fun g n => (g.targets n).foldl (fun g dest => g.unlink n dest) g) g

/-- Puts a row of edges in place of everything between two nodes. -/
def spliceRegion [PlainEdge ε] (g : Graph ε) (start dest : Nat) (edges : List ε) :
    Except Fault (Graph ε) :=
  let region := g.region start dest
  let targets := region.flatMap g.targets
  if g.size ≤ start then .error (.nodeNotFound start)
  else if g.size ≤ dest then .error (.nodeNotFound dest)
  else if targets.any (g.size ≤ ·) then .error .linkOutsideArena
  else if !targets.contains dest then .error (.violation (.regionMisses start dest))
  else ((g.unlinkAll region).vacate (region.filter (· != start))).layEdges start dest edges

/-! ## Rows -/

/-- The graph that is one row of edges from its entry to its end. -/
def linear [PlainEdge ε] (edges : List ε) : Graph ε :=
  let edges := if edges.isEmpty then [PlainEdge.plain] else edges
  let nodes := edges.mapIdx fun i edge => Node.simple ⟨edge, i + 1⟩
  indexed (nodes ++ [Node.done]).toArray 0

end Graph

end ScriptRecovery
