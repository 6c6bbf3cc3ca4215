import ScriptRecovery.Graph.Splice
import ScriptRecovery.Outcome

/-!
# Splices in place

The splices as they are carried out: check after check, and write after write, on one graph.  What a
splice leaves is the graph as it is when the splice ends, also when it ends with a fault, so nothing
here says by itself that a refused splice has changed nothing.

A node gets its way out before the way is recorded.  A row is laid from its end: the last edge goes
over the first node that is added, and the first node of the row comes last.
-/

namespace ScriptRecovery

namespace Graph

variable {ε : Type}

/-- Gives `n` one way out, and then records it. -/
def linkInPlace (g : Graph ε) (n : Nat) (edge : ε) (dest : Nat) : Outcome (Graph ε) :=
  let written : Graph ε := { g with nodes := g.nodes.setIfInBounds n (.simple ⟨edge, dest⟩) }
  if dest < written.preds.size then
    ⟨{ written with preds := written.preds.modify dest (·.insert n) }, .ok true⟩
  else .failed written .linkOutsideArena

/-- Lays edges that end at `dest` over new nodes, the last edge given first, and leads `n` to them
by a first edge. -/
def layInPlace (g : Graph ε) (n : Nat) (first : ε) (dest : Nat) : List ε → Outcome (Graph ε)
  | [] => g.linkInPlace n first dest
  | edge :: edges =>
      let linked := g.grow.linkInPlace g.size edge dest
      match linked.changed with
      | .error fault => .failed linked.state fault
      | .ok _ => linked.state.layInPlace n first g.size edges

/-- Lays a row of edges from one node to another. -/
def layEdgesInPlace [PlainEdge ε] (g : Graph ε) (n dest : Nat) : List ε → Outcome (Graph ε)
  | [] => g.linkInPlace n PlainEdge.plain dest
  | edge :: edges => g.layInPlace n edge dest edges.reverse

/-- Puts a row of edges in place of the one way out of a node. -/
def spliceEdgeInPlace [PlainEdge ε] (g : Graph ε) (n : Nat) (edges : List ε) :
    Outcome (Graph ε) :=
  match g.outTarget n with
  | .error fault => .failed g fault
  | .ok dest => (g.unlink n dest).layEdgesInPlace n dest edges

/-- Puts a row of edges in place of a chain. -/
def spliceChainInPlace [PlainEdge ε] (g : Graph ε) (chain : List Nat) (edges : List ε) :
    Outcome (Graph ε) :=
  match chain with
  | [] => .failed g .emptyChain
  | first :: rest =>
      match g.outTarget first with
      | .error _ => .failed g .invalidChain
      | .ok next =>
          match g.chainTarget next rest with
          | .error fault => .failed g fault
          | .ok dest =>
              ((g.unlinkChain first dest rest).vacate rest).layEdgesInPlace first dest edges

/-- Puts a row of edges in place of everything between two nodes. -/
def spliceRegionInPlace [PlainEdge ε] (g : Graph ε) (start dest : Nat) (edges : List ε) :
    Outcome (Graph ε) :=
  let region := g.region start dest
  let targets := region.flatMap g.targets
  if g.size ≤ start then .failed g (.nodeNotFound start)
  else if g.size ≤ dest then .failed g (.nodeNotFound dest)
  else if targets.any (g.size ≤ ·) then .failed g .linkOutsideArena
  else if !targets.contains dest then .failed g (.violation (.regionMisses start dest))
  else
    ((g.unlinkAll region).vacate (region.filter (· != start))).layEdgesInPlace start dest edges

end Graph

end ScriptRecovery
