import ScriptRecovery.Graph.Basic

/-!
# Examining an arena while searching it

The way in for an arena of unknown origin, as it is carried out.  A search of its own looks at the
nodes: whether a node is pending when it is taken off the stack, and whether a target is in the
arena when the target is met.  The search ends at the first fault.  Only when it has met none does
another search, in preorder, fill the index.
-/

namespace ScriptRecovery

namespace Marks

/-- Marks the free ones of some nodes, in order, and puts each on a stack, up to the first node that
is not in the graph. -/
def enlistWithin (m : Marks) (stack : List Nat) : List Nat → Except Fault (Marks × List Nat)
  | [] => .ok (m, stack)
  | i :: is =>
      match m.flags[i]? with
      | .none => .error (.nodeNotFound i)
      | some true => m.enlistWithin stack is
      | some false => (m.mark i).enlistWithin (i :: stack) is

/-- Nodes that are all in the graph are enlisted. -/
theorem enlistWithin_eq_ok {m : Marks} {stack is : List Nat} {r : Marks × List Nat}
    (h : m.enlistWithin stack is = .ok r) : r = m.enlist stack is := by
  induction is generalizing m stack with
  | nil =>
    cases h
    rfl
  | cons i is ih =>
    unfold enlistWithin at h
    unfold enlist isFree
    split at h
    · cases h
    · next hi =>
      rw [hi]
      exact ih h
    · next hi =>
      rw [hi]
      exact ih h

end Marks

namespace Graph

variable {ε : Type}

/-- Takes nodes off a stack until it is empty or there is a fault. -/
def examine (nodes : Array (Node ε)) (marks : Marks) : List Nat → Except Fault Unit
  | [] => .ok ()
  | n :: stack =>
      match nodes[n]? with
      | none => .error (.nodeNotFound n)
      | some .pending => .error (.violation (.reachablePending n))
      | some node =>
          match _h : marks.enlistWithin stack node.targets with
          | .error fault => .error fault
          | .ok enlisted => examine nodes enlisted.1 enlisted.2
termination_by stack => marks.free + stack.length
decreasing_by
  rw [Marks.enlistWithin_eq_ok _h, Marks.free_enlist]
  simp

/-- The graph over an arena whose entry is in it, if a search from the entry meets no fault. -/
def accept (nodes : Array (Node ε)) (source : Nat) : Except Fault (Graph ε) :=
  if nodes.size ≤ source then .error (.nodeNotFound source)
  else
    match examine nodes ((Marks.none nodes.size).mark source) [source] with
    | .error fault => .error fault
    | .ok () => .ok (indexed nodes source)

end Graph

end ScriptRecovery
