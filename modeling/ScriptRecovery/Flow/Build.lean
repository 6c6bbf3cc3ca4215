import ScriptRecovery.Action.Stream
import ScriptRecovery.Flow.Edge

/-!
# The graph of a stream

`FlowGraph.ofStream` reads a stream from offset zero.  Every offset that control reaches gets one
node, and every action becomes the edge out of the node of its offset.

* A jump is a plain edge to the node of its target.
* A branch is a test edge to a branching node.  Each of the two arms starts with a node of its own.
  The node stands for the offset the arm leads to if no other node does yet, and has a plain edge to
  the other node if one does.
* Any other action is an edge to a new node, which is treated like an arm.

A node from which nothing can be read gets a plain edge to an end of its own.  This covers an
unreadable offset and a branch that leads outside the offsets.

The offsets to read are kept on a stack, and the last one found is read first.  An offset goes on
the stack once, when it gets its node, so no entry of the stream is read twice.  `Draft.read` takes
every entry it reads out of the stream and ends because the stream does.  `Draft.turns` is the loop
over a reader that stays what it is, one offset a round, and nothing in it says that the stack is
ever empty.
-/

namespace ScriptRecovery

namespace FlowGraph

/-- A graph under construction. -/
structure Draft where
  /-- The nodes so far. -/
  nodes : Array (Node Edge)
  /-- The node of each offset found, the last one first. -/
  offsets : List (Nat × Nat)
  /-- The offsets to read, the next one first. -/
  todo : List Nat
  /-- The nodes from which nothing leads on yet. -/
  incomplete : Ascending Nat

namespace Draft

/-- The start: one node for offset zero. -/
def start : Draft := ⟨#[.pending], [(0, 0)], [0], .singleton 0⟩

/-- The node of an offset. -/
def nodeOf? (d : Draft) (offset : Nat) : Option Nat := d.offsets.lookup offset

/-- A new node. -/
def grow (d : Draft) : Draft := { d with nodes := d.nodes.push .pending }

/-- Gives a node one way out. -/
def connect (d : Draft) (node : Nat) (edge : Edge) (dest : Nat) : Draft :=
  { d with
    nodes := d.nodes.setIfInBounds node (.simple ⟨edge, dest⟩)
    incomplete := d.incomplete.erase node }

/-- Makes a node the one of an offset, which is then to be read. -/
def found (d : Draft) (node offset : Nat) : Draft :=
  { d with
    offsets := (offset, node) :: d.offsets
    todo := offset :: d.todo
    incomplete := d.incomplete.insert node }

/-- Lets a node stand for where control goes next. -/
def resolve (d : Draft) (node : Nat) : Option Nat → Draft
  | none => { d with incomplete := d.incomplete.insert node }
  | some offset =>
      match d.nodeOf? offset with
      | some existing => d.connect node .plain existing
      | none => d.found node offset

/-- The way out of a node for the action at its offset. -/
def step (d : Draft) (node : Nat) (action : Action) (next : Nat) : Draft :=
  match action with
  | .branch displacement =>
      let test := d.nodes.size
      let d := d.grow.grow.grow.connect node .ifTest test
      let d := { d with
        nodes := d.nodes.setIfInBounds test
          (.branch ⟨.ifTrue, test + 1⟩ ⟨.ifFalse, test + 2⟩) }
      (d.resolve (test + 2) (some next)).resolve (test + 1) (branchTarget next displacement)
  | .jump displacement =>
      match branchTarget next displacement with
      | none => d
      | some target =>
          match d.nodeOf? target with
          | some existing => d.connect node .plain existing
          | none =>
              let dest := d.nodes.size
              (d.grow.found dest target).connect node .plain dest
  | action =>
      let dest := d.nodes.size
      (d.grow.connect node (.action action) dest).resolve dest (some next)

/-- Reads every offset on the stack, from the entries not read yet. -/
def read (d : Draft) (entries : Stream) : Draft :=
  match _hd : d.todo with
  | [] => d
  | offset :: todo =>
      let d' := { d with todo }
      match _he : entries.entryAt? offset, d.nodeOf? offset with
      | some entry, some node =>
          (d'.step node entry.action entry.next).read (entries.without offset)
      | _, _ => d'.read entries
termination_by (entries.length, d.todo.length)
decreasing_by
  · exact Prod.Lex.left _ _ (Stream.length_without_lt _he)
  · exact Prod.Lex.right _ (by simp [_hd])

/-- One round of the loop: the next offset is taken off the stack, and what can be read there gives
its node a way out.  When the stack is empty the loop has ended, and nothing changes. -/
def turn (reader : Nat → Option (Action × Nat)) (d : Draft) : Draft :=
  match d.todo with
  | [] => d
  | offset :: todo =>
      let d' := { d with todo }
      match d.nodeOf? offset, reader offset with
      | some node, some (action, next) => d'.step node action next
      | _, _ => d'

/-- What the loop leaves after some rounds. -/
def turns (reader : Nat → Option (Action × Nat)) : Nat → Draft → Draft
  | 0, d => d
  | rounds + 1, d => turns reader rounds (d.turn reader)

/-- Gives every incomplete node a plain edge to an end of its own, in ascending order. -/
def close (d : Draft) : Array (Node Edge) :=
  d.incomplete.toList.foldl (fun nodes node =>
    (nodes.setIfInBounds node (.simple ⟨.plain, nodes.size⟩)).push .done) d.nodes

end Draft

/-- The graph of a stream, from offset zero. -/
def ofStream (s : Stream) : Except Fault FlowGraph :=
  Graph.ofNodes (Draft.start.read s).close 0

end FlowGraph

end ScriptRecovery
