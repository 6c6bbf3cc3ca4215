import ScriptRecovery.Arena.Basic

/-!
# Evaluation with a state

A state is threaded through a syntax tree in the order of evaluation.  A node gets the state that
the node before it leaves, hands it to its first child, and says with `Rule.leave` what becomes of
the state that its last child leaves.  The result has the states before and after every node, in
the order in which nodes are finished.

A choice between statements is threaded only by a rule that says what is known after either arm
(`Rule.fork?`).  Both arms then start from that state, and it is also the state after the choice.
Expressions that may leave a part unevaluated cannot be threaded.
-/

namespace ScriptRecovery

/-- How a state changes. -/
structure Rule (σ : Type) where
  /-- The state after a node, by the states before it and after its children. -/
  leave : Nat → Kind → σ → σ → σ
  /-- The state in which both arms of a choice start, by the state after its test. -/
  fork? : Option (Nat → σ → σ)

/-- The states before and after a node. -/
structure Passage (σ : Type) where
  /-- The node. -/
  node : Nat
  /-- The state before it. -/
  input : σ
  /-- The state after it. -/
  output : σ

/-- Whether a node of a kind evaluates all its children in order. -/
def Kind.isSequential : Kind → Bool
  | .branch | .logical _ | .conditional => false
  | _ => true

namespace Rule

variable {σ : Type}

mutual

/-- Threads a state through a tree. -/
def thread (r : Rule σ) (input : σ) : Rose (Nat × Form) → Except Fault (σ × List (Passage σ))
  | .node (n, form) parts =>
      if form.kind.isSequential then do
        let (after, inside) ← r.threadRow input parts
        let output := r.leave n form.kind input after
        return (output, inside ++ [⟨n, input, output⟩])
      else
        match form.kind, r.fork? with
        | .branch, some fork => do
            let (output, inside) ← r.threadChoice (fork n) input parts
            return (output, inside ++ [⟨n, input, output⟩])
        | kind, _ => .error (.unsupported kind.name)

/-- Threads a state through trees in a row. -/
def threadRow (r : Rule σ) (input : σ) :
    List (Rose (Nat × Form)) → Except Fault (σ × List (Passage σ))
  | [] => .ok (input, [])
  | part :: parts => do
      let (next, first) ← r.thread input part
      let (output, rest) ← r.threadRow next parts
      return (output, first ++ rest)

/-- Threads a state through a test and two arms. -/
def threadChoice (r : Rule σ) (fork : σ → σ) (input : σ) :
    List (Rose (Nat × Form)) → Except Fault (σ × List (Passage σ))
  | [] => .ok (fork input, [])
  | test :: arms => do
      let (tested, first) ← r.thread input test
      let rest ← r.threadArms (fork tested) arms
      return (fork tested, first ++ rest)

/-- Threads one state through each of some trees. -/
def threadArms (r : Rule σ) (input : σ) :
    List (Rose (Nat × Form)) → Except Fault (List (Passage σ))
  | [] => .ok []
  | arm :: arms => do
      let (_, first) ← r.thread input arm
      return first ++ (← r.threadArms input arms)

end

/-- The passages through everything below a node. -/
def passages (r : Rule σ) (t : SyntaxTree) (start : Nat) (input : σ) :
    Except Fault (List (Passage σ)) := do
  let _ ← t.slot start
  match t.branch? start with
  | some tree => return (← r.thread input tree).2
  | none => throw (.violation (.malformed start))

/-- Counts the nodes whose kind satisfies a condition.  A choice has no one count after it. -/
def counting (counts : Kind → Bool) : Rule Nat where
  leave _ kind _ after := if counts kind then after + 1 else after
  fork? := none

end Rule

/-- Passages in ascending order of their nodes. -/
def Passage.sort {σ : Type} (ps : List (Passage σ)) : List (Passage σ) :=
  ps.mergeSort fun p q => p.node ≤ q.node

end ScriptRecovery
