import ScriptRecovery.Arena.Basic

/-!
# Walks through a syntax tree

A walk enters a node, walks through its children in order, and leaves the node.  A `Cursor` is a
walk under way: the node where it started and the step it is at.  It does not hold the tree, so it
can go on in a tree that has changed, and then fails where its step no longer makes sense.

While a cursor is outstanding its tree is not edited.  A cursor takes a ticket from the tree, and
the tree counts as being walked until the ticket is given back.  Tickets are never given out twice,
so giving one back again has no effect.  A copy of a tree starts without tickets.

`SyntaxTree.traverse` walks through everything below a node, and asks a visitor at every step how to
go on.
-/

namespace ScriptRecovery

/-- A step of a walk. -/
inductive Step
  /-- A node is entered. -/
  | enter (node : Nat)
  /-- A node is left. -/
  | leave (node : Nat)
  deriving DecidableEq, Inhabited

/-- How a walk goes on after a step. -/
inductive Reply
  /-- To the next step. -/
  | advance
  /-- Past the children of the node just entered. -/
  | skip
  /-- Not at all. -/
  | stop
  deriving DecidableEq, Inhabited

/-- A walk under way. -/
structure Cursor where
  /-- The node where the walk started. -/
  start : Nat
  /-- The step it is at, nothing after the end. -/
  current : Option Step
  /-- The ticket it took. -/
  ticket : Nat
  deriving DecidableEq

/-- The step of a walk from `start` that follows a step. -/
def SyntaxTree.stepAfter (t : SyntaxTree) (start : Nat) : Step → Reply → Except Fault (Option Step)
  | _, .stop => .ok none
  | .enter n, .skip => .ok (some (.leave n))
  | .enter n, .advance => do
      let s ← t.slot n
      return some (match s.children.head? with
        | some c => .enter c
        | none => .leave n)
  | .leave n, _ =>
      if n = start then .ok none
      else match t.parent? n with
        | none => .error (.violation (.leftSubtree n start))
        | some link =>
            .ok (some (match t.nextSibling? n with
              | some sibling => .enter sibling
              | none => .leave link.parent))

/-- A walk one step further. -/
def Cursor.advance (c : Cursor) (t : SyntaxTree) (reply : Reply) : Except Fault Cursor :=
  match c.current with
  | none => .ok c
  | some step => do return { c with current := ← t.stepAfter c.start step reply }

namespace SyntaxTree

/-! ## Tickets -/

/-- Whether a walk is under way. -/
def isWalked (t : SyntaxTree) : Bool := !t.readers.isEmpty

/-- A walk from a node, and the tree with its ticket. -/
def cursor (t : SyntaxTree) (start : Nat) : Except Fault (Cursor × SyntaxTree) := do
  let _ ← t.slot start
  return (⟨start, some (.enter start), t.nextTicket⟩,
    { t with readers := t.nextTicket :: t.readers, nextTicket := t.nextTicket + 1 })

/-- The tree after a walk gave its ticket back. -/
def release (t : SyntaxTree) (c : Cursor) : SyntaxTree :=
  { t with readers := t.readers.filter (· != c.ticket) }

/-- A copy of a tree. -/
def copy (t : SyntaxTree) : SyntaxTree := { t with readers := [] }

/-! ## Visitors -/

/-- A visitor with a state. -/
abbrev Visitor (σ : Type) := Step → σ → Except Fault Reply × σ

/-- A walk from a step on, of at most as many steps as the fuel.  The state is there also when the
visitor or the walk fails. -/
def walkFrom {σ : Type} (t : SyntaxTree) (start : Nat) (visit : Visitor σ) (state : σ) :
    Option Step → Nat → Except Fault Unit × σ
  | none, _ | _, 0 => (.ok (), state)
  | some step, fuel + 1 =>
      match visit step state with
      | (.error fault, state) => (.error fault, state)
      | (.ok reply, state) =>
          match t.stepAfter start step reply with
          | .error fault => (.error fault, state)
          | .ok next => t.walkFrom start visit state next fuel

/-- A walk through everything below a node.  It enters and leaves each node at most once. -/
def traverse {σ : Type} (t : SyntaxTree) (start : Nat) (visit : Visitor σ) (state : σ) :
    Except Fault Unit × σ :=
  match t.slot start with
  | .error fault => (.error fault, state)
  | .ok _ => t.walkFrom start visit state (some (.enter start)) (2 * t.slots.size)

end SyntaxTree

end ScriptRecovery
