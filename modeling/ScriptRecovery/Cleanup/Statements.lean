import ScriptRecovery.Arena.Edit
import ScriptRecovery.Outcome

/-!
# Statements without effect

Definitions of constant pools have no effect in a script without pool entries, and empty statements
have none in a list.  Both are taken out from the back, so that no other statement to be taken out
moves.  A definition that is not in a list, as an arm of a choice, becomes the empty statement.
-/

namespace ScriptRecovery

namespace SyntaxTree

/-- Whether a kind defines a constant pool. -/
def definesPool : Kind → Bool
  | .constantPool _ => true
  | _ => false

/-- Whether a kind is an entry of a constant pool. -/
def usesPool : Kind → Bool
  | .atom (.constant _) => true
  | _ => false

/-- The definitions of constant pools from the back, if no entry is used. -/
def unusedPools (t : SyntaxTree) : List Nat :=
  if t.nodes.any (usesPool ·.2.kind) then []
  else ((t.nodes.filter (definesPool ·.2.kind)).map Prod.fst).reverse

/-- Takes a statement out of its list, or empties its place. -/
def dropStatement (t : SyntaxTree) (n : Nat) : Except Fault SyntaxTree :=
  if t.inList n then t.removeStatement n else t.replaceStatement n (.empty none)

/-- Takes out the definitions of constant pools that are not used. -/
def dropUnusedPools (t : SyntaxTree) : Outcome SyntaxTree :=
  .ofEdits dropStatement t (.ok t.unusedPools)

/-- The empty statements in lists, from the back. -/
def emptyStatements (t : SyntaxTree) : List Nat :=
  ((t.nodes.filter fun n => n.2.kind = .empty && t.inList n.1).map Prod.fst).reverse

/-- Takes out the empty statements in lists. -/
def dropEmptyStatements (t : SyntaxTree) : Outcome SyntaxTree :=
  .ofEdits removeStatement t (.ok t.emptyStatements)

end SyntaxTree

end ScriptRecovery
