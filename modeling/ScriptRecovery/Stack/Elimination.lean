import ScriptRecovery.Arena.Edit
import ScriptRecovery.Ascending
import ScriptRecovery.Outcome
import ScriptRecovery.Stack.Usage

/-!
# Temporaries in place of pushes and pops

A push whose value is only ever taken by pops that are known becomes an assignment to a new
temporary, and the pops become reads of it.  A push is left alone when its value may still be on
the stack at the end of the script or of an arm of a choice (`dangling`).

Pops are replaced first, so that the value of a push that contains pops is moved with the
temporaries already in it.
-/

namespace ScriptRecovery

namespace SyntaxTree

/-- The passage through a node. -/
def passageAt? {σ : Type} (usage : List (Passage σ)) (n : Nat) : Option (Passage σ) :=
  usage.find? (·.node == n)

/-- The arms of the choices of a script. -/
def arms (t : SyntaxTree) : List Nat :=
  t.nodes.flatMap fun n => if n.2.kind = .branch then (t.children n.1).drop 1 else []

/-- The pushes whose values may be on the stack at the end of the script or of an arm. -/
def dangling (t : SyntaxTree) (usage : List (Passage StackState)) : List Nat :=
  (root :: t.arms).flatMap fun n =>
    ((passageAt? usage n).map fun p => p.output.pushes).getD []

/-- The pops with the pushes whose values they take, in preorder. -/
def matchedPops (t : SyntaxTree) (usage : List (Passage StackState)) : List (Nat × Nat) :=
  let dangling := t.dangling usage
  t.nodes.filterMap fun n => do
    guard (n.2.kind = .atom .pop)
    let push ← (← passageAt? usage n.1).input.topPush?
    guard (!dangling.contains push)
    return (push, n.1)

/-- The pushes to eliminate in ascending order, each with its pops in preorder. -/
def pushPops (t : SyntaxTree) (usage : List (Passage StackState)) : List (Nat × List Nat) :=
  let pairs := t.matchedPops usage
  (Ascending.ofList (pairs.map Prod.fst)).toList.map fun push =>
    (push, (pairs.filter (·.1 == push)).map Prod.snd)

/-- One edit of an elimination. -/
inductive Substitution
  /-- Takes a new temporary for a push. -/
  | take (push : Nat)
  /-- Puts a temporary in the place of a pop. -/
  | pop (node id : Nat)
  /-- Puts an assignment in the place of a push. -/
  | push (node id : Nat)

/-- The edits that eliminate pushes, with temporaries from `first` on. -/
def substitutions (first : Nat) (pairs : List (Nat × List Nat)) : List Substitution :=
  (pairs.mapIdx fun i p => .take p.1 :: p.2.map (.pop · (first + i))).flatten ++
    pairs.mapIdx fun i p => .push p.1 (first + i)

/-- Applies one edit. -/
def substitute (t : SyntaxTree) : Substitution → Except Fault SyntaxTree
  | .take push => do return (← t.freshTemporary push).2
  | .pop n id => t.replaceExpression n (.temporary id)
  | .push n id => do
      match ← t.statement n with
      | .push value _ =>
          t.replaceStatement n (.expression (.assign (.temporary id none) value) none)
      | _ => throw (.violation (.malformed n))

/-- The edits that eliminate the matched pushes of a script. -/
def eliminations (t : SyntaxTree) : Except Fault (List Substitution) := do
  let pairs := t.pushPops (← t.stackUsage)
  if pairs.isEmpty then return []
  return substitutions (← t.currentScope root).next pairs

/-- Puts temporaries in place of matched pushes and pops. -/
def bindPushes (t : SyntaxTree) : Outcome SyntaxTree :=
  .ofEdits substitute t t.eliminations

end SyntaxTree

end ScriptRecovery
