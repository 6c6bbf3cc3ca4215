import ScriptRecovery.Reduce.Pass

/-!
# Conditionals

A test whose two arms meet again becomes one conditional edge, which holds the arms as graphs.

The nodes are examined in reverse postorder.  A node with a test edge must lead to a branching node
that has no other predecessor.  The nodes listed after that one are then taken in turn.  Each edge
into such a node must continue one of the two arms: it comes from the branching node itself, or
from the node that the arm has reached, and the arm must be alone in getting there.  The
arms have met when both have reached the same node.

An edge that continues neither arm ends the attempt, and the search goes on from the node it leads
to.  After two arms have met, the search goes on from the node where they met.
-/

namespace ScriptRecovery

/-- A region that becomes a conditional edge. -/
structure Conditional where
  /-- The node of the test edge. -/
  source : Nat
  /-- The node where the arms meet. -/
  dest : Nat
  /-- The edge that takes the place of what is between. -/
  edge : Edge

/-- The branching node of a test, with the targets of its two arms. -/
structure BranchPoint where
  /-- The node. -/
  node : Nat
  /-- Where the arm for a test that holds starts. -/
  onTrue : Nat
  /-- Where the other arm starts. -/
  onFalse : Nat

/-- How far the two arms of a test have been followed. -/
structure Arms where
  /-- The node that the arm for a test that holds has reached. -/
  trueHead : Nat
  /-- The edges of that arm, the last one first. -/
  trueEdges : List Edge
  /-- The node that the other arm has reached. -/
  falseHead : Nat
  /-- The edges of the other arm, the last one first. -/
  falseEdges : List Edge

namespace Arms

/-- Two arms that have not left the branching node. -/
def start (p : BranchPoint) : Arms := ⟨p.node, [], p.node, []⟩

/-- The conditional edge of two arms. -/
def toEdge (arms : Arms) : Edge :=
  .conditional (.linear arms.trueEdges.reverse) (.linear arms.falseEdges.reverse)

/-- Whether an edge continues the arm for a test that holds (`true`) or the other one (`false`), if
it continues one.  An edge that could belong to either arm belongs to the second. -/
def side? (g : FlowGraph) (p : BranchPoint) (arms : Arms) (e : BoundEdge Edge) : Option Bool :=
  if e.source = p.node then
    if e.dest = p.onFalse then some false
    else if e.dest = p.onTrue then some true
    else none
  else if !(g.node? e.source).any Node.isSimple then none
  else if e.source = arms.falseHead then some false
  else if e.source = arms.trueHead then some true
  else none

/-- The arms with one more edge, if it continues one of them and that arm is alone at its node. -/
def extend (g : FlowGraph) (p : BranchPoint) (arms : Arms) (e : BoundEdge Edge) : Option Arms :=
  match arms.side? g p e with
  | none => none
  | some true =>
      if g.inDegree arms.trueHead = 1 then
        some { arms with trueHead := e.dest, trueEdges := e.edge :: arms.trueEdges }
      else none
  | some false =>
      if g.inDegree arms.falseHead = 1 then
        some { arms with falseHead := e.dest, falseEdges := e.edge :: arms.falseEdges }
      else none

/-- What comes of the edges into one node. -/
inductive Progress
  /-- An edge continues neither arm. -/
  | blocked
  /-- Both arms go on. -/
  | going (arms : Arms)
  /-- The arms have met. -/
  | met (arms : Arms)

/-- Follows the edges into one node, in order, up to the one with which the arms meet. -/
def follow (g : FlowGraph) (p : BranchPoint) (arms : Arms) : List (BoundEdge Edge) → Progress
  | [] => .going arms
  | e :: es =>
      match arms.extend g p e with
      | none => .blocked
      | some arms =>
          if arms.trueHead = arms.falseHead then .met arms else arms.follow g p es

/-- Follows the edges into nodes in order.  The answer is the arms if they meet, and the nodes from
where the search goes on. -/
def followAll (g : FlowGraph) (p : BranchPoint) (arms : Arms) : List Nat → Option Arms × List Nat
  | [] => (none, [])
  | n :: ns =>
      match arms.follow g p (g.inEdges n) with
      | .blocked => (none, n :: ns)
      | .met arms => (some arms, n :: ns)
      | .going arms => arms.followAll g p ns

/-- The search goes on from one of the nodes that were to be followed. -/
theorem length_followAll_le (g : FlowGraph) (p : BranchPoint) (arms : Arms) (ns : List Nat) :
    (arms.followAll g p ns).2.length ≤ ns.length := by
  induction ns generalizing arms with
  | nil => exact Nat.le_refl _
  | cons n ns ih =>
    unfold followAll
    split
    · exact Nat.le_refl _
    · exact Nat.le_refl _
    · exact Nat.le_succ_of_le (ih _)

end Arms

namespace FlowGraph

/-- The branching node that the test edge of a node leads to, if the node has a test edge. -/
def branchPoint? (g : FlowGraph) (n : Nat) : Except Fault (Option BranchPoint) :=
  match (g.node? n).bind Node.simpleOut? with
  | some ⟨.ifTest, dest⟩ =>
      match g.node? dest with
      | some (.branch onTrue onFalse) =>
          if g.inDegree dest = 1 then .ok (some ⟨dest, onTrue.dest, onFalse.dest⟩)
          else .error (.violation (.sharedBranch dest (g.inDegree dest)))
      | _ => .error (.violation (.testWithoutBranch n))
  | _ => .ok none

/-- The conditionals among nodes in order. -/
def conditionalsIn (g : FlowGraph) : List Nat → Except Fault (List Conditional)
  | [] => .ok []
  | n :: ns =>
      match g.branchPoint? n with
      | .error fault => .error fault
      | .ok none => g.conditionalsIn ns
      | .ok (some p) =>
          match ns with
          | [] => .ok []
          | m :: rest =>
              if m = p.node then
                let found := (Arms.start p).followAll g p rest
                (g.conditionalsIn found.2).map fun more =>
                  (found.1.map fun arms => ⟨n, arms.trueHead, arms.toEdge⟩).toList ++ more
              else g.conditionalsIn (m :: rest)
termination_by ns => ns.length
decreasing_by
  · simp
  · have := Arms.length_followAll_le g p (Arms.start p) rest
    simp only [List.length_cons]
    omega
  · simp

/-- The conditionals of a graph, none of which overlaps another. -/
def conditionals (g : FlowGraph) : Except Fault (List Conditional) :=
  g.conditionalsIn (g.list .reversePostorder)

end FlowGraph

/-- Puts conditional edges in place of tests whose arms meet. -/
def Pass.formConditionals : Pass where
  name := "reduce-conditionals"
  description := "Recovers if/else statements from branch-and-merge regions"
  run _ g :=
    .ofEdits (fun g c => g.spliceRegion c.source c.dest [c.edge]) g
      (FlowGraph.conditionals g)

end ScriptRecovery
