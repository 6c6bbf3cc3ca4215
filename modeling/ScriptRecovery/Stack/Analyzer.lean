import ScriptRecovery.Stack.Usage

/-!
# Analysis of an arena

How a state is threaded through the nodes of an arena, as it is carried out.  A node is looked up by
its number, its children are evaluated by theirs, and when it is finished the states before and
after it are written into a record.  The record is in ascending order of the nodes and holds one
entry for each of them, so a node that was evaluated twice would lose its first entry.
-/

namespace ScriptRecovery

variable {σ : Type}

/-- A record with the states of a node, in place of those that it may have had. -/
def Passage.insert (p : Passage σ) : List (Passage σ) → List (Passage σ)
  | [] => [p]
  | q :: qs =>
      if p.node < q.node then p :: q :: qs
      else if p.node = q.node then p :: qs
      else q :: Passage.insert p qs

namespace Rule

/-- Evaluates nodes in a row, each from the state that the one before it leaves. -/
def evaluateRow
    (evaluate : Nat → σ → List (Passage σ) → Except Fault (σ × List (Passage σ)))
    (input : σ) (record : List (Passage σ)) :
    List Nat → Except Fault (σ × List (Passage σ))
  | [] => .ok (input, record)
  | n :: ns => do
      let (next, record) ← evaluate n input record
      evaluateRow evaluate next record ns

/-- Evaluates each of some nodes from one state. -/
def evaluateArms
    (evaluate : Nat → σ → List (Passage σ) → Except Fault (σ × List (Passage σ)))
    (input : σ) (record : List (Passage σ)) : List Nat → Except Fault (List (Passage σ))
  | [] => .ok record
  | n :: ns => do
      let (_, record) ← evaluate n input record
      evaluateArms evaluate input record ns

/-- Evaluates a node that is at most as deep as the fuel, and records the states of all nodes on the
way. -/
def evaluate (r : Rule σ) (t : SyntaxTree) :
    Nat → Nat → σ → List (Passage σ) → Except Fault (σ × List (Passage σ))
  | 0, n, _, _ => .error (.violation (.malformed n))
  | fuel + 1, n, input, record => do
      let slot ← t.slot n
      let kind := slot.form.kind
      let (output, record) ←
        if kind.isSequential then do
          let (after, record) ← evaluateRow (r.evaluate t fuel) input record slot.children
          pure (r.leave n kind input after, record)
        else
          match kind, r.fork?, slot.children with
          | .branch, some _, [] => .error (.violation (.malformed n))
          | .branch, some fork, test :: arms => do
              let (tested, record) ← r.evaluate t fuel test input record
              let record ← evaluateArms (r.evaluate t fuel) (fork n tested) record arms
              pure (fork n tested, record)
          | kind, _, _ => .error (.unsupported kind.name)
      return (output, Passage.insert ⟨n, input, output⟩ record)

/-- The record of an evaluation from a node on. -/
def analyze (r : Rule σ) (t : SyntaxTree) (start : Nat) (input : σ) :
    Except Fault (List (Passage σ)) := do
  return (← r.evaluate t t.slots.size start input []).2

end Rule

/-- The stack before and after every node of a script, in ascending order of the nodes. -/
def SyntaxTree.analyzeStack (t : SyntaxTree) : Except Fault (List (Passage StackState)) :=
  StackState.rule.analyze t root []

end ScriptRecovery
