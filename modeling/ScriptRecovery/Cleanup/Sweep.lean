import ScriptRecovery.Arena.Cursor
import ScriptRecovery.Cleanup.Builtins
import ScriptRecovery.Cleanup.Statements

/-!
# Cleanups that walk

The cleanups of statements without effect, and the naming of builtins, as they are carried out.  A
walk through the tree notes the nodes that it enters, and the edits start when it has ended.  Uses
of the global object are named before the traces are, each of which is built anew from its value.
-/

namespace ScriptRecovery

namespace SyntaxTree

/-- A visitor that goes everywhere and acts when a node is entered. -/
def onEnter {σ : Type} (enter : Nat → σ → σ) : Visitor σ
  | .enter n, s => (.ok .advance, enter n s)
  | .leave _, s => (.ok .advance, s)

/-- Notes the definitions of constant pools, and whether an entry is used. -/
def notePool (t : SyntaxTree) (n : Nat) (noted : List Nat × Bool) : List Nat × Bool :=
  match t.kind? n with
  | some (.constantPool _) => (noted.1 ++ [n], noted.2)
  | some (.atom (.constant _)) => (noted.1, true)
  | _ => noted

/-- Notes the empty statements in lists. -/
def noteEmpty (t : SyntaxTree) (n : Nat) (noted : List Nat) : List Nat :=
  if t.inList n && t.kind? n = some .empty then noted ++ [n] else noted

/-- Takes out the definitions of constant pools that a walk notes, if it notes no entry. -/
def sweepPools (t : SyntaxTree) : Outcome SyntaxTree :=
  match t.traverse root (onEnter t.notePool) ([], false) with
  | (.error fault, _) => .failed t fault
  | (.ok (), pools, used) =>
      if used || pools.isEmpty then .unchanged t else .applyAll dropStatement t pools.reverse

/-- Takes out the empty statements in lists that a walk notes. -/
def sweepEmpties (t : SyntaxTree) : Outcome SyntaxTree :=
  match t.traverse root (onEnter t.noteEmpty) [] with
  | (.error fault, _) => .failed t fault
  | (.ok (), empties) => .ofEdits removeStatement t (.ok empties.reverse)

/-- Notes the uses of the global object, and the traces. -/
def noteBuiltin (t : SyntaxTree) (n : Nat) (noted : List Nat × List Nat) : List Nat × List Nat :=
  match t.kind? n with
  | some (.atom .global) => (noted.1 ++ [n], noted.2)
  | some .trace => (noted.1, noted.2 ++ [n])
  | _ => noted

/-- Puts a name in place of a use of the global object. -/
def nameGlobal (names : BuiltinNames) (t : SyntaxTree) (n : Nat) : Except Fault SyntaxTree :=
  t.replaceExpression n (.identifier names.global)

/-- Puts a call in place of a trace, with the value that the trace now has. -/
def nameTrace (names : BuiltinNames) (t : SyntaxTree) (n : Nat) : Except Fault SyntaxTree :=
  match t.child? n .value with
  | none => .error (.violation (.malformed n))
  | some v => do
      let value ← t.expression v
      t.replaceStatement n (.expression (.call (.identifier names.trace) [value] none) none)

/-- Puts names in place of the builtins that a walk notes, first of the global object. -/
def sweepBuiltins (names : BuiltinNames) (t : SyntaxTree) : Outcome SyntaxTree :=
  match t.traverse root (onEnter t.noteBuiltin) ([], []) with
  | (.error fault, _) => .failed t fault
  | (.ok (), globals, traces) =>
      match Outcome.applyAll (nameGlobal names) t globals with
      | ⟨t, .error fault⟩ => .failed t fault
      | ⟨t, .ok _⟩ =>
          match Outcome.applyAll (nameTrace names) t traces with
          | ⟨t, .error fault⟩ => .failed t fault
          | ⟨t, .ok _⟩ => ⟨t, .ok !(globals.isEmpty && traces.isEmpty)⟩

end SyntaxTree

end ScriptRecovery
