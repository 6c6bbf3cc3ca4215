import ScriptRecovery.Reduce.Chains

/-!
# The search for chains, step by step

The loop that finds the chains of a graph, as it is carried out: over a table with one flag per
node, a stack, and the chain that is being made.  A step takes a node off the stack, puts the next
node on the chain, or ends the chain.  Only nodes without a mark go on the stack, and a flag looked
up outside the table is a fault.  Nothing here says that the search comes to an end.
-/

namespace ScriptRecovery

namespace Marks

/-- Whether a node has a mark.  A node outside the graph has no flag. -/
def seen (m : Marks) (i : Nat) : Except Fault Bool :=
  match m.flags[i]? with
  | some flag => .ok flag
  | .none => .error .linkOutsideArena

/-- Puts the nodes that have no mark on a stack, in order. -/
def pile (m : Marks) (stack : List Nat) : List Nat → Except Fault (List Nat)
  | [] => .ok stack
  | i :: is => do
      if ← m.seen i then m.pile stack is else m.pile (i :: stack) is

end Marks

/-- A chain that is being made. -/
structure PartialChain where
  /-- Its nodes so far. -/
  nodes : List Nat
  /-- The last of them. -/
  last : Nat
  /-- The node that the last one leads to. -/
  next : Nat

/-- A search for chains under way. -/
structure ChainSearch where
  /-- The nodes seen. -/
  marks : Marks
  /-- The nodes that are still to be looked at, the next one first. -/
  stack : List Nat
  /-- The chains found, in order. -/
  found : List (List Nat)
  /-- The chain that is being made, if there is one. -/
  making : Option PartialChain

namespace ChainSearch

/-- A search that has yet to look at the entry. -/
def start (g : FlowGraph) : ChainSearch := ⟨.none g.size, [g.source], [], none⟩

/-- Whether nothing is left to do. -/
def Ended (s : ChainSearch) : Prop := s.stack = [] ∧ s.making = none

/-- Goes on to the targets of a node. -/
def leave (g : FlowGraph) (s : ChainSearch) (n : Nat) : Except Fault ChainSearch := do
  return { s with stack := ← s.marks.pile s.stack (g.targets n) }

/-- Ends a chain and goes on to the targets of its last node. -/
def close (g : FlowGraph) (s : ChainSearch) (c : PartialChain) : Except Fault ChainSearch :=
  leave g { s with found := s.found ++ [c.nodes], making := none } c.last

/-- Puts the next node on a chain, or ends the chain. -/
def extend (g : FlowGraph) (s : ChainSearch) (c : PartialChain) : Except Fault ChainSearch := do
  if c.next = g.source ∨ g.inDegree c.next ≠ 1 then s.close g c
  else if ← s.marks.seen c.next then s.close g c
  else
    match (g.node? c.next).bind Node.simpleOut? with
    | none => s.close g c
    | some out =>
        return { s with
          marks := s.marks.mark c.next
          making := some ⟨c.nodes ++ [c.next], c.next, out.dest⟩ }

/-- Looks at a node that was on the stack.  One with one way out starts a chain. -/
def visit (g : FlowGraph) (s : ChainSearch) (n : Nat) : Except Fault ChainSearch := do
  if ← s.marks.seen n then return s
  else
    let s := { s with marks := s.marks.mark n }
    match (g.node? n).bind Node.simpleOut? with
    | none => s.leave g n
    | some out => return { s with making := some ⟨[n], n, out.dest⟩ }

/-- One step of the loop.  When nothing is left to do, nothing changes. -/
def step (g : FlowGraph) (s : ChainSearch) : Except Fault ChainSearch :=
  match s.making, s.stack with
  | some c, _ => s.extend g c
  | none, n :: stack => visit g { s with stack } n
  | none, [] => .ok s

/-- What the loop leaves after some steps. -/
def run (g : FlowGraph) : Nat → ChainSearch → Except Fault ChainSearch
  | 0, s => .ok s
  | steps + 1, s => do run g steps (← s.step g)

end ChainSearch

end ScriptRecovery
