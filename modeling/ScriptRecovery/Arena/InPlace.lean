import ScriptRecovery.Arena.Edit
import ScriptRecovery.Outcome

/-!
# Edits in place

The edits of a syntax tree as they are carried out: check after check, and write after write, on
one tree.  What an edit leaves is the tree as it is when the edit ends, also when it ends with a
fault, so nothing here says by itself that a refused edit has changed nothing.

A replacement takes the children out of the slot of the node, frees them one after another, and then
plants what comes instead.  A removal takes the node out of the children of its parent, moves those
behind it, and frees the node last.
-/

namespace ScriptRecovery

/-- An edit of a tree. -/
inductive Edit
  /-- A statement is put in the place of one. -/
  | replaceStatement (n : Nat) (s : Stmt)
  /-- An expression is put in the place of one. -/
  | replaceExpression (n : Nat) (e : Expr)
  /-- A target is put in the place of one. -/
  | replaceTarget (n : Nat) (p : Target)
  /-- A statement is taken out of its list. -/
  | removeStatement (n : Nat)

namespace SyntaxTree

/-- Writes the children of a node. -/
def setChildren (t : SyntaxTree) (n : Nat) (children : List Nat) : SyntaxTree :=
  { t with slots := t.slots.modify n <| Option.map fun s => { s with children } }

/-- Frees nodes and everything below them, one node after another. -/
def free (t : SyntaxTree) (ns : List Nat) : SyntaxTree :=
  ns.foldl (fun t n => t.vacate [n]) t

/-- Makes the place of a node of a category ready for what comes instead. -/
def prepare (t : SyntaxTree) (n : Nat) (category : Category) : Outcome SyntaxTree :=
  if t.isWalked then .failed t .traversalActive
  else match t.slot n with
    | .error fault => .failed t fault
    | .ok s =>
        if s.form.kind.category = category then ⟨(t.setChildren n []).free s.children, .ok true⟩
        else .failed t (.violation (.replaceMismatch s.form.kind.name n category))

/-- Puts a tree of forms in the place of a node of the same category. -/
def replaceInPlace (t : SyntaxTree) (n : Nat) (category : Category) (r : Rose Form) :
    Outcome SyntaxTree :=
  let prepared := t.prepare n category
  match prepared.changed with
  | .error fault => .failed prepared.state fault
  | .ok _ => ⟨prepared.state.plantAt n r, .ok true⟩

/-- Takes a statement out of the list it is in. -/
def removeInPlace (t : SyntaxTree) (n : Nat) : Outcome SyntaxTree :=
  if t.isWalked then .failed t .traversalActive
  else match t.slot n with
    | .error fault => .failed t fault
    | .ok _ =>
        match (t.parent? n).filter (·.field == .body) with
        | none => .failed t (.violation (.notInList n))
        | some link =>
            match t.slot link.parent with
            | .error fault => .failed t fault
            | .ok p =>
                if p.children[link.index]? = some n then
                  let t := t.dropChild link.parent link.index
                  let shifted := (t.children link.parent).drop link.index
                  ⟨(shifted.foldl shiftLink t).vacate [n], .ok true⟩
                else .failed t (.violation (.misplaced n link.index link.parent))

end SyntaxTree

namespace Edit

/-- The tree after an edit, if it is not refused. -/
def run (t : SyntaxTree) : Edit → Except Fault SyntaxTree
  | replaceStatement n s => t.replaceStatement n s
  | replaceExpression n e => t.replaceExpression n e
  | replaceTarget n p => t.replaceTarget n p
  | removeStatement n => t.removeStatement n

/-- What an edit in place leaves. -/
def inPlace (t : SyntaxTree) : Edit → Outcome SyntaxTree
  | replaceStatement n s => t.replaceInPlace n .statement s.rose
  | replaceExpression n e => t.replaceInPlace n .expression e.rose
  | replaceTarget n p => t.replaceInPlace n .target p.rose
  | removeStatement n => t.removeInPlace n

end Edit

end ScriptRecovery
