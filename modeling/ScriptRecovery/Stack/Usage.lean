import ScriptRecovery.Stack.Rule

/-!
# Use of the operand stack

A script puts values on the operand stack with push statements and takes them off with pop
expressions.  This analysis follows the stack in the order of evaluation.  It knows the stack from
the top down as a row of frames.

* A push puts its frame on the stack, after its value is evaluated.
* A pop takes the frame of a push off, if that is on top.  Otherwise it puts a frame of its own
  there, since it took a value from below everything that is known.
* A call, an array and an object take as many values as a count says that is not known.  Their frame
  hides everything below.  A choice hides everything below in the same way, from its arms and from
  what follows.

So a push is matched with a pop exactly when its frame is on top where the pop starts.
-/

namespace ScriptRecovery

/-- What happened last to a place of the stack. -/
inductive Frame
  /-- A push put a value there. -/
  | push (node : Nat)
  /-- A pop took a value of which nothing is known. -/
  | pop (node : Nat)
  /-- Any number of values was taken. -/
  | barrier (node : Nat)
  deriving DecidableEq

/-- The frames known, from the top down. -/
abbrev StackState := List Frame

namespace StackState

/-- The push whose value is on top. -/
def topPush? : StackState → Option Nat
  | .push n :: _ => some n
  | _ => none

/-- The pushes whose values may be on the stack, from the top down. -/
def pushes (s : StackState) : List Nat :=
  s.filterMap fun
    | .push n => some n
    | _ => none

/-- The stack after a pop. -/
def afterPop (n : Nat) : StackState → StackState
  | .push _ :: below => below
  | s => .pop n :: s

/-- How the stack changes. -/
def rule : Rule StackState where
  leave n kind input after :=
    match kind with
    | .push => .push n :: after
    | .atom .pop => input.afterPop n
    | .stackCall | .initArray | .initObject => .barrier n :: after
    | _ => after
  fork? := some fun n after => .barrier n :: after

end StackState

/-- The stack before and after every node of a script. -/
def SyntaxTree.stackUsage (t : SyntaxTree) : Except Fault (List (Passage StackState)) :=
  StackState.rule.passages t root []

end ScriptRecovery
