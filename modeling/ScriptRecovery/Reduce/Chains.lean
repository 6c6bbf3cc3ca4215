import ScriptRecovery.Reduce.Pass

/-!
# Chains

A chain is a row of nodes with one way out each.  Every node after the first is the target of the
one before it, has no other predecessor and is not the entry.  `FlowGraph.chains` cuts the simple
nodes that the entry reaches into chains as long as possible.

The edges along a chain are merged from its start.  A plain edge disappears beside any other, and
two templates become one where `Template.merge` allows.  A chain on which nothing merges is left
alone.
-/

namespace ScriptRecovery

namespace FlowGraph

/-! ## Finding chains -/

/-- The nodes that continue a chain whose last node leads to `next`, and the marks after them. -/
def chainFrom (g : FlowGraph) (marks : Marks) (next : Nat) : Marks × List Nat :=
  if marks.isFree next && next != g.source && g.inDegree next == 1 then
    match (g.node? next).bind Node.simpleOut? with
    | none => (marks, [])
    | some out =>
        let tail := g.chainFrom (marks.mark next) out.dest
        (tail.1, next :: tail.2)
  else (marks, [])
termination_by marks.free
decreasing_by
  have := Marks.free_mark (m := marks) (i := next) (by simp_all)
  omega

/-- Continuing a chain marks nodes and frees none. -/
theorem free_chainFrom_le (g : FlowGraph) (marks : Marks) (next : Nat) :
    (g.chainFrom marks next).1.free ≤ marks.free := by
  fun_induction chainFrom g marks next with
  | case1 => exact Nat.le_refl _
  | case2 marks next h out hout tail ih =>
    have := Marks.free_mark (m := marks) (i := next) (by simp_all)
    have : tail.1.free ≤ (marks.mark next).free := ih
    simp only
    omega
  | case3 => exact Nat.le_refl _

/-- The chains found by a search over an explicit stack.  The targets of the last node of a chain
go on the stack in order, so the last one is explored first. -/
def chainsFrom (g : FlowGraph) (marks : Marks) : List Nat → List (List Nat)
  | [] => []
  | start :: stack =>
      if marks.isFree start then
        match (g.node? start).bind Node.simpleOut? with
        | none => g.chainsFrom (marks.mark start) ((g.targets start).reverse ++ stack)
        | some out =>
            let tail := chainFrom g (marks.mark start) out.dest
            let last := tail.2.getLastD start
            (start :: tail.2) :: g.chainsFrom tail.1 ((g.targets last).reverse ++ stack)
      else g.chainsFrom marks stack
termination_by stack => (marks.free, stack.length)
decreasing_by
  · next h =>
    exact Prod.Lex.left _ _ (by have := Marks.free_mark h; omega)
  · refine Prod.Lex.left _ _ ?_
    have := Marks.free_mark (m := marks) (i := start) (by assumption)
    have := free_chainFrom_le g (marks.mark start) out.dest
    omega
  · exact Prod.Lex.right _ (by simp)

/-- The chains of the simple nodes that the entry reaches. -/
def chains (g : FlowGraph) : List (List Nat) :=
  g.chainsFrom (.none g.size) [g.source]

/-- The edges out of the nodes of a chain. -/
def chainEdges (g : FlowGraph) (chain : List Nat) : List Edge :=
  chain.filterMap fun n => ((g.node? n).bind Node.simpleOut?).map Link.edge

end FlowGraph

/-! ## Merging edges -/

namespace Edge

/-- One edge for two in a row, if there is one. -/
def merge : Edge → Edge → Except Fault (Option Edge)
  | .plain, other | other, .plain => .ok (some other)
  | .template first, .template second => do return (← first.merge second).map .template
  | _, _ => .ok none

/-- Puts an edge on merged edges, the last one first.  It merges with the last of them, the result
with the one before, and so on.  The answer tells whether anything merged. -/
def mergeOnto (edge : Edge) : List Edge → Except Fault (List Edge × Bool)
  | [] => .ok ([edge], false)
  | last :: merged => do
      match ← last.merge edge with
      | none => return (edge :: last :: merged, false)
      | some both => return ((← both.mergeOnto merged).1, true)

/-- Merges edges in a row onto merged edges, the last one first. -/
def mergeRow (merged : List Edge) (changed : Bool) : List Edge → Except Fault (List Edge × Bool)
  | [] => .ok (merged, changed)
  | edge :: edges => do
      let (merged, grew) ← edge.mergeOnto merged
      mergeRow merged (changed || grew) edges

/-- The edges of a row after merging, if anything merges. -/
def reduceRow (edges : List Edge) : Except Fault (Option (List Edge)) := do
  let (merged, changed) ← mergeRow [] false edges
  return if changed then some merged.reverse else none

end Edge

namespace FlowGraph

/-- The chains on which edges merge, each with its merged edges. -/
def mergedChains (g : FlowGraph) : List (List Nat) → Except Fault (List (List Nat × List Edge))
  | [] => .ok []
  | chain :: chains => do
      let reduced ← Edge.reduceRow (g.chainEdges chain)
      let rest ← g.mergedChains chains
      return reduced.toList.map (chain, ·) ++ rest

end FlowGraph

/-- Merges edges along chains. -/
def Pass.mergeChains : Pass where
  name := "reduce-chains"
  description := "Merges partial expressions along chains of single-predecessor nodes"
  run _ g :=
    .ofEdits (fun g r => g.spliceChain r.1 r.2) g
      (FlowGraph.mergedChains g (FlowGraph.chains g))

end ScriptRecovery
